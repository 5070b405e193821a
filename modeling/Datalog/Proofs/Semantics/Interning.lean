import Datalog.Proofs.Semantics.Value
import Mathlib.Data.Finset.Dedup
import Mathlib.Data.Finset.Card

/-!
# What a store has interned

A store that was empty at first holds the different terms in the order in which they came, and the
number of a term is its place among them.  The arguments of a constructor have been interned before it,
so that the numbers descend along the arguments: every number stands for one value, no two numbers stand
for the same, and following the arguments comes to an end.
-/

namespace Datalog

section Lists

variable {α β : Type} [DecidableEq α] [DecidableEq β]

theorem idxOf?_of_mem {items : List α} {item : α} (member : item ∈ items) :
    items.idxOf? item = some (items.idxOf item) := by
  induction items with
  | nil => simp at member
  | cons head items ih =>
      rw [List.idxOf?_cons, List.idxOf_cons]
      by_cases here : head = item
      · simp [here]
      · have later := (List.mem_cons.mp member).resolve_left (Ne.symm here)
        simp [beq_false_of_ne here, ih later]

theorem eraseDups_concat (items : List α) (item : α) :
    (items ++ [item]).eraseDups =
      if item ∈ items then items.eraseDups else items.eraseDups ++ [item] := by
  rw [List.eraseDups_append]
  by_cases old : item ∈ items <;> simp [List.removeAll, old, List.eraseDups_cons]

theorem eraseDups_map {f : α → β} {items : List α}
    (injective : ∀ first ∈ items, ∀ second ∈ items, f first = f second → first = second) :
    (items.map f).eraseDups = items.eraseDups.map f := by
  induction items using List.reverseRecOn with
  | nil => rfl
  | append_singleton items item ih =>
      have earlier := ih fun first member second member' =>
        injective first (List.mem_append_left _ member) second (List.mem_append_left _ member')
      have memberIff : f item ∈ items.map f ↔ item ∈ items := by
        refine ⟨fun mapped => ?_, List.mem_map_of_mem⟩
        obtain ⟨other, member, same⟩ := List.mem_map.mp mapped
        rwa [← injective other (List.mem_append_left _ member) item (by simp) same]
      rw [List.map_append, List.map_singleton, eraseDups_concat, eraseDups_concat, earlier]
      by_cases old : item ∈ items <;> simp [memberIff, old]

theorem map_idxOf_self {items : List α} (nodup : items.Nodup) :
    items.map (items.idxOf ·) = List.range items.length := by
  refine List.ext_getElem (by simp) fun place inside _ => ?_
  simp [nodup.idxOf_getElem]

theorem idxOf_eraseDups_lt {items : List α} {item : α} (member : item ∈ items) :
    items.eraseDups.idxOf item < items.eraseDups.length :=
  List.idxOf_lt_length_iff.mpr (List.mem_eraseDups.mpr member)

/-- An item that comes for the first time is put after those that came before. -/
theorem idxOf_eraseDups_of_notMem {front : List α} {item : α} (isFirst : item ∉ front)
    (back : List α) : (front ++ item :: back).eraseDups.idxOf item = front.eraseDups.length := by
  have absent : item ∉ front.eraseDups := mt List.mem_eraseDups.mp isFirst
  have next : ((item :: back).removeAll front).eraseDups.idxOf item = 0 := by
    simp [List.removeAll, isFirst, List.eraseDups_cons]
  rw [List.eraseDups_append, List.idxOf_append_of_notMem absent, next, Nat.add_zero]

end Lists

def GroundTerm.args : GroundTerm → List TermId
  | .ctor _ args => args
  | _ => []

namespace TermStore

def internAll (store : TermStore) : List GroundTerm → List TermId × TermStore
  | [] => ([], store)
  | term :: terms =>
      let (id, store) := store.intern term
      let (ids, store) := internAll store terms
      (id :: ids, store)

/-- The arguments of every term are numbers that were handed out before it was interned. -/
def Ready (terms : List GroundTerm) : Prop :=
  ∀ place (inside : place < terms.length), ∀ arg ∈ terms[place].args,
    arg ∈ (internAll {} (terms.take place)).1

instance (terms : List GroundTerm) : Decidable (Ready terms) :=
  inferInstanceAs (Decidable (∀ place (inside : place < terms.length),
    ∀ arg ∈ terms[place].args, arg ∈ (internAll {} (terms.take place)).1))

/-- The number of a term is its place among the different terms. -/
def numberIn (terms : List GroundTerm) (term : GroundTerm) : TermId :=
  ⟨.ofNat (terms.eraseDups.idxOf term)⟩

variable {terms front back : List GroundTerm} {term : GroundTerm}

theorem internAll_append (store : TermStore) (front back : List GroundTerm) :
    internAll store (front ++ back) =
      ((internAll store front).1 ++ (internAll (internAll store front).2 back).1,
        (internAll (internAll store front).2 back).2) := by
  induction front generalizing store with
  | nil => rfl
  | cons term front ih => simp [internAll, ih]

theorem numberIn_append (old : term ∈ front) : numberIn (front ++ back) term = numberIn front term := by
  rw [numberIn, numberIn, List.eraseDups_append,
    List.idxOf_append_of_mem (List.mem_eraseDups.mpr old)]

/-- A term is looked for among the stored ones, and put after them if it is missing. -/
theorem intern_toArray (stored : List GroundTerm) (term : GroundTerm) :
    intern { terms := stored.toArray } term =
      (⟨.ofNat (stored.idxOf term)⟩,
        { terms := (if term ∈ stored then stored else stored ++ [term]).toArray }) := by
  by_cases old : term ∈ stored
  · simp [intern, idxOf?_of_mem old, old]
  · simp [intern, List.idxOf?_eq_none_iff.mpr old, old]

theorem internAll_eq (terms : List GroundTerm) :
    internAll {} terms = (terms.map (numberIn terms), { terms := terms.eraseDups.toArray }) := by
  induction terms using List.reverseRecOn with
  | nil => rfl
  | append_singleton front term ih =>
      have earlier : front.map (numberIn (front ++ [term])) = front.map (numberIn front) :=
        List.map_congr_left fun _ => numberIn_append
      have last : numberIn (front ++ [term]) term = ⟨.ofNat (front.eraseDups.idxOf term)⟩ := by
        rw [numberIn, eraseDups_concat]
        split
        · rfl
        · next absent =>
            have absent : term ∉ front.eraseDups := by rwa [List.mem_eraseDups]
            simp [List.idxOf_append_of_notMem absent, List.idxOf_of_notMem absent]
      rw [internAll_append, ih]
      simp only [internAll, intern_toArray, List.mem_eraseDups, eraseDups_concat, List.map_append,
        List.map_cons, List.map_nil, earlier, last]

theorem extends_internAll (store : TermStore) (terms : List GroundTerm) :
    (store.internAll terms).2.Extends store := by
  induction terms generalizing store with
  | nil => exact .refl store
  | cons term terms ih => exact (ih _).trans (extends_intern store term)

theorem ids_internAll (terms : List GroundTerm) :
    (internAll {} terms).1 = terms.map (numberIn terms) :=
  congrArg Prod.fst (internAll_eq terms)

theorem size_internAll (terms : List GroundTerm) :
    (internAll {} terms).2.size = terms.eraseDups.length := by
  simp [internAll_eq, size]

theorem Distinct.internAll {store : TermStore} (distinct : store.Distinct) (terms : List GroundTerm) :
    (store.internAll terms).2.Distinct := by
  induction terms generalizing store with
  | nil => exact distinct
  | cons term terms ih => exact ih (distinct.intern term)

theorem nodup_eraseDups_terms (terms : List GroundTerm) : terms.eraseDups.Nodup := by
  simpa [Distinct, internAll_eq] using Distinct.empty.internAll terms

/-! ## Numbers -/

/-- There are numbers for all different terms. -/
def Few (terms : List GroundTerm) : Prop :=
  terms.eraseDups.length < UInt32.size

theorem Few.of_append (few : Few (front ++ back)) : Few front := by
  rw [Few, List.eraseDups_append, List.length_append] at few
  exact Nat.lt_of_le_of_lt (Nat.le_add_right _ _) few

theorem Few.toNat_numberIn (few : Few terms) (member : term ∈ terms) :
    (numberIn terms term).raw.toNat = terms.eraseDups.idxOf term :=
  UInt32.toNat_ofNat_of_lt' ((idxOf_eraseDups_lt member).trans few)

theorem Few.numberIn_ne_greatest (few : Few terms) (member : term ∈ terms) :
    numberIn terms term ≠ .greatest := by
  intro same
  have inside := idxOf_eraseDups_lt member
  rw [← few.toNat_numberIn member, same] at inside
  exact absurd few (Nat.not_lt_of_le inside)

theorem Few.numberIn_inj (few : Few terms) {other : GroundTerm} (member : term ∈ terms)
    (member' : other ∈ terms) : numberIn terms term = numberIn terms other ↔ term = other := by
  refine ⟨fun same => ?_, fun same => same ▸ rfl⟩
  rw [← List.idxOf_inj (List.mem_eraseDups.mpr member), ← few.toNat_numberIn member,
    ← few.toNat_numberIn member', same]

theorem Few.resolve_eq_some_iff (few : Few terms) {id : TermId} :
    (internAll {} terms).2.resolve id = some term ↔ term ∈ terms ∧ numberIn terms term = id := by
  have resolved : (internAll {} terms).2.resolve id = terms.eraseDups[id.raw.toNat]? := by
    simp [internAll_eq, resolve]
  rw [resolved]
  constructor
  · intro found
    obtain ⟨inside, rfl⟩ := List.getElem?_eq_some_iff.mp found
    have place := (nodup_eraseDups_terms terms).idxOf_getElem _ inside
    refine ⟨List.mem_eraseDups.mp (List.getElem_mem inside), ?_⟩
    rw [numberIn, place, UInt32.ofNat_toNat]
  · rintro ⟨member, rfl⟩
    rw [few.toNat_numberIn member, List.getElem?_eq_getElem (idxOf_eraseDups_lt member),
      List.getElem_idxOf]

theorem card_eq (terms : List GroundTerm) : terms.toFinset.card = terms.eraseDups.length := by
  rw [← List.toFinset_card_of_nodup (nodup_eraseDups_terms terms)]
  congr 1
  ext term
  simp

theorem few_iff : terms.toFinset.card < UInt32.size ↔ Few terms := by
  rw [card_eq, Few]

theorem Few.same_iff (few : Few terms) (first second : Nat) :
    (terms.map (numberIn terms))[first]? = (terms.map (numberIn terms))[second]? ↔
      terms[first]? = terms[second]? := by
  rw [List.getElem?_map, List.getElem?_map]
  cases firstEq : terms[first]? with
  | none => cases terms[second]? <;> simp
  | some term =>
      cases secondEq : terms[second]? with
      | none => simp
      | some other =>
          simpa using few.numberIn_inj (List.mem_of_getElem? firstEq) (List.mem_of_getElem? secondEq)

theorem Few.resolve_take_iff (few : Few terms) (count : Nat) {id : TermId} :
    (internAll {} (terms.take count)).2.resolve id = some term ↔
      ∃ place < count, terms[place]? = some term ∧ (terms.map (numberIn terms))[place]? = some id := by
  have fewTaken : Few (terms.take count) := by
    rw [← List.take_append_drop count terms] at few
    exact few.of_append
  have numbers : ∀ other ∈ terms.take count, numberIn terms other = numberIn (terms.take count) other := by
    intro other member
    have shape := @numberIn_append _ (terms.drop count) _ member
    rwa [List.take_append_drop] at shape
  rw [fewTaken.resolve_eq_some_iff]
  constructor
  · rintro ⟨member, rfl⟩
    obtain ⟨place, atPlace⟩ := List.mem_iff_getElem?.mp member
    have early : place < count := by
      have inside := (List.getElem?_eq_some_iff.mp atPlace).1
      rw [List.length_take] at inside
      omega
    have termEq : terms[place]? = some term := by rwa [List.getElem?_take_of_lt early] at atPlace
    exact ⟨place, early, termEq, by rw [List.getElem?_map, termEq, Option.map_some, numbers _ member]⟩
  · rintro ⟨place, inside, termEq, idEq⟩
    rw [List.getElem?_map, termEq, Option.map_some, Option.some.injEq] at idEq
    have member : term ∈ terms.take count :=
      List.mem_of_getElem? ((List.getElem?_take_of_lt inside).trans termEq)
    exact ⟨member, (numbers term member).symm.trans idEq⟩

theorem Few.counted (few : Few terms) :
    (terms.map (numberIn terms)).eraseDups.map (·.raw.toNat) = List.range terms.eraseDups.length := by
  rw [eraseDups_map fun first member second member' same => (few.numberIn_inj member member').mp same,
    List.map_map, ← map_idxOf_self (nodup_eraseDups_terms terms)]
  exact List.map_congr_left fun term member => few.toNat_numberIn (List.mem_eraseDups.mp member)

theorem Ready.descends (ready : Ready terms) (few : Few terms) {arg : TermId} (member : term ∈ terms)
    (isArg : arg ∈ term.args) : arg ∈ (internAll {} terms).1 ∧ arg < numberIn terms term := by
  -- Where the term comes first, its number is that of all different terms before it.
  obtain ⟨front, back, rfl, isFirst⟩ := List.eq_append_cons_of_mem member
  have handedOut := ready front.length (by simp) arg (by simpa using isArg)
  rw [List.take_left, ids_internAll] at handedOut
  rw [ids_internAll]
  obtain ⟨earlier, earlierMember, rfl⟩ := List.mem_map.mp handedOut
  have sameNumber : numberIn (front ++ term :: back) earlier = numberIn front earlier :=
    numberIn_append earlierMember
  refine ⟨List.mem_map.mpr ⟨earlier, List.mem_append_left _ earlierMember, sameNumber⟩, ?_⟩
  change (numberIn front earlier).raw < (numberIn (front ++ term :: back) term).raw
  rw [UInt32.lt_iff_toNat_lt, few.of_append.toNat_numberIn earlierMember, few.toNat_numberIn member,
    idxOf_eraseDups_of_notMem isFirst]
  exact idxOf_eraseDups_lt earlierMember

/-! ## Values and texts -/

variable {store : TermStore}

/-- The arguments of every constructor have numbers of their own, which are smaller. -/
def Descends (store : TermStore) : Prop :=
  ∀ id name args, store.resolve id = some (.ctor name args) → ∀ arg ∈ args,
    (∃ term, store.resolve arg = some term) ∧ arg < id

theorem Ready.descends_internAll (ready : Ready terms) (few : Few terms) :
    (internAll {} terms).2.Descends := by
  intro id name args resolved arg isArg
  obtain ⟨member, rfl⟩ := few.resolve_eq_some_iff.mp resolved
  obtain ⟨handedOut, less⟩ := ready.descends few member isArg
  rw [ids_internAll] at handedOut
  obtain ⟨term, termMember, rfl⟩ := List.mem_map.mp handedOut
  exact ⟨⟨term, few.resolve_eq_some_iff.mpr ⟨termMember, rfl⟩⟩, less⟩

theorem exists_denotesAll {args : List TermId} (each : ∀ arg ∈ args, ∃ value, store.Denotes arg value) :
    ∃ values, store.DenotesAll args values := by
  induction args with
  | nil => exact ⟨[], trivial⟩
  | cons arg args ih =>
      obtain ⟨⟨value, denotes⟩, others⟩ := List.forall_mem_cons.mp each
      obtain ⟨values, denotesAll⟩ := ih others
      exact ⟨value :: values, denotes, denotesAll⟩

theorem Descends.exists_denotes (descends : store.Descends) {id : TermId} {term : GroundTerm}
    (resolved : store.resolve id = some term) : ∃ value, store.Denotes id value := by
  induction size : id.raw.toNat using Nat.strong_induction_on generalizing id term with
  | _ bound ih =>
      cases term with
      | bool value => exact ⟨.bool value, resolved⟩
      | int value => exact ⟨.int value, resolved⟩
      | str value => exact ⟨.str value, resolved⟩
      | ctor name args =>
          have each : ∀ arg ∈ args, ∃ value, store.Denotes arg value := by
            intro arg isArg
            obtain ⟨⟨term, argResolved⟩, less⟩ := descends id name args resolved arg isArg
            exact ih _ (size ▸ UInt32.lt_iff_toNat_lt.mp less) argResolved rfl
          obtain ⟨values, denotesAll⟩ := exists_denotesAll each
          exact ⟨.ctor name values, args, resolved, denotesAll⟩

/-- The text that is written for a number by following the arguments, however deep they nest. -/
inductive Renders (store : TermStore) : TermId → String → Prop
  | unknown {id : TermId} (missing : store.resolve id = none) : Renders store id id.render
  | bool {id : TermId} {value : Bool} (resolved : store.resolve id = some (.bool value)) :
      Renders store id (Term.renderBool value)
  | int {id : TermId} {value : Int64} (resolved : store.resolve id = some (.int value)) :
      Renders store id (Term.renderInt value)
  | str {id : TermId} {value : String} (resolved : store.resolve id = some (.str value)) :
      Renders store id (Text.quote value)
  | ctor {id : TermId} {name : String} {args : List TermId} {texts : List String}
      (resolved : store.resolve id = some (.ctor name args))
      (rendered : List.Forall₂ (Renders store) args texts) :
      Renders store id (Term.renderCtor name texts)

/-- Above its number, the depth to which a term is written does not matter. -/
theorem Descends.renders_renderTo (descends : store.Descends) {depth : Nat} {id : TermId}
    (deep : id.raw.toNat < depth) : store.Renders id (store.renderTo depth id) := by
  induction depth generalizing id with
  | zero => exact absurd deep (Nat.not_lt_zero _)
  | succ depth ih =>
      rw [renderTo]
      split
      · next missing => exact .unknown missing
      · next resolved => exact .bool resolved
      · next resolved => exact .int resolved
      · next resolved => exact .str resolved
      · next name args resolved =>
          refine .ctor resolved (List.forall₂_map_right_iff.mpr (List.forall₂_same.mpr ?_))
          intro arg isArg
          have less := UInt32.lt_iff_toNat_lt.mp (descends id name args resolved arg isArg).2
          exact ih (by omega)

theorem Descends.renders (descends : store.Descends) (id : TermId) :
    store.Renders id (store.render id) := by
  rcases Nat.lt_or_ge id.raw.toNat (store.size + 1) with deep | outside
  · exact descends.renders_renderTo deep
  · have missing : store.resolve id = none := by
      rw [resolve, Array.getElem?_eq_none_iff]
      exact Nat.le_of_succ_le outside
    rw [render, renderTo, missing]
    exact .unknown missing

theorem Descends.renders_unique (descends : store.Descends) {id : TermId} {text text' : String}
    (renders : store.Renders id text) (renders' : store.Renders id text') : text = text' := by
  induction size : id.raw.toNat using Nat.strong_induction_on generalizing id text text' with
  | _ bound ih =>
      cases renders with
      | @ctor _ name args texts resolved rendered =>
          cases renders' with
          | @ctor _ name' args' texts' resolved' rendered' =>
              obtain ⟨rfl, rfl⟩ : name = name' ∧ args = args' := by
                simpa [resolved] using resolved'
              -- Only below the bound the texts are known to be unique, and all arguments are there.
              have smaller : ∀ arg ∈ args, arg.raw.toNat < bound := fun arg isArg =>
                size ▸ UInt32.lt_iff_toNat_lt.mp (descends id name args resolved arg isArg).2
              have unique : Relator.RightUnique fun arg text =>
                  arg.raw.toNat < bound ∧ store.Renders arg text :=
                fun _ _ _ first second => ih _ first.1 first.2 second.2 rfl
              rw [List.right_unique_forall₂' unique ((List.forall₂_and_left _ _).mpr ⟨smaller, rendered⟩)
                ((List.forall₂_and_left _ _).mpr ⟨smaller, rendered'⟩)]
          | _ => simp_all
      | _ => cases renders' <;> simp_all

theorem Descends.renders_iff (descends : store.Descends) (id : TermId) (text : String) :
    store.Renders id text ↔ text = store.render id := by
  refine ⟨fun renders => descends.renders_unique renders (descends.renders id), ?_⟩
  rintro rfl
  exact descends.renders id

end TermStore

/-! ## Shards -/

/-- A store whose terms are spread over sixteen tables, so that several tasks can look for terms at
once.  The terms of the numbers stand in a table of their own, and a counter tells the next number. -/
structure ShardedStore where
  shards : Fin 16 → List (GroundTerm × TermId) := fun _ => []
  nodes : List (Option GroundTerm) := []
  next : UInt32 := 0

namespace ShardedStore

/-- The number of a term, which is put into its shard if it is new. -/
def intern (shardOf : GroundTerm → Fin 16) (store : ShardedStore) (term : GroundTerm) :
    TermId × ShardedStore :=
  match (store.shards (shardOf term)).lookup term with
  | some id => (id, store)
  | none =>
      let place := store.next.toNat
      let nodes := store.nodes ++ List.replicate (place + 1 - store.nodes.length) none
      let shards := Function.update store.shards (shardOf term)
        ((term, ⟨store.next⟩) :: store.shards (shardOf term))
      (⟨store.next⟩, { shards, nodes := nodes.set place (some term), next := store.next + 1 })

def internAll (shardOf : GroundTerm → Fin 16) (store : ShardedStore) :
    List GroundTerm → List TermId × ShardedStore
  | [] => ([], store)
  | term :: terms =>
      let (id, store) := intern shardOf store term
      let (ids, store) := internAll shardOf store terms
      (id :: ids, store)

def resolve (store : ShardedStore) (id : TermId) : Option GroundTerm :=
  store.nodes[id.raw.toNat]?.join

/-- The tables and the counter of a sharded store tell the same as a store. -/
structure Matches (shardOf : GroundTerm → Fin 16) (sharded : ShardedStore) (store : TermStore) :
    Prop where
  next_eq : sharded.next.toNat = store.size
  nodes_eq : sharded.nodes = store.terms.toList.map some
  lookup_eq : ∀ term, (sharded.shards (shardOf term)).lookup term =
    (store.terms.idxOf? term).map fun place => ⟨.ofNat place⟩

variable {shardOf : GroundTerm → Fin 16} {sharded : ShardedStore} {store : TermStore}

theorem matches_empty (shardOf : GroundTerm → Fin 16) : Matches shardOf {} {} :=
  ⟨rfl, rfl, fun _ => by simp⟩

theorem Matches.resolve_eq (same : Matches shardOf sharded store) (id : TermId) :
    sharded.resolve id = store.resolve id := by
  rw [resolve, TermStore.resolve, same.nodes_eq, List.getElem?_map, ← Array.getElem?_toList]
  cases store.terms.toList[id.raw.toNat]? <;> rfl

theorem idxOf?_push (terms : Array GroundTerm) (term other : GroundTerm) :
    (terms.push term).idxOf? other =
      (terms.idxOf? other).or (if other = term then some terms.size else none) := by
  obtain ⟨items⟩ := terms
  simp only [List.push_toArray, List.idxOf?_toArray, List.idxOf?, List.findIdx?_append]
  by_cases same : other = term
  · simp [same]
  · simp [same, Ne.symm same]

/-- Both stores answer alike and stay alike, as long as the counter does not overflow. -/
theorem Matches.intern (same : Matches shardOf sharded store) {term : GroundTerm}
    (room : (store.intern term).2.size < UInt32.size) :
    (sharded.intern shardOf term).1 = (store.intern term).1 ∧
      Matches shardOf (sharded.intern shardOf term).2 (store.intern term).2 := by
  have looked := same.lookup_eq term
  unfold ShardedStore.intern TermStore.intern at *
  cases found : store.terms.idxOf? term with
  | some place =>
      simp only [found, Option.map_some] at looked room ⊢
      rw [looked]
      exact ⟨rfl, same⟩
  | none =>
      simp only [found, Option.map_none, TermStore.size, Array.size_push] at looked room ⊢
      rw [looked]
      have place : sharded.next.toNat = store.terms.size := same.next_eq
      have nextEq : sharded.next = .ofNat store.terms.size := by
        rw [← place, UInt32.ofNat_toNat]
      refine ⟨by simp [nextEq], ?_, ?_, fun other => ?_⟩
      · rw [UInt32.toNat_add, place]
        simpa [TermStore.size] using Nat.mod_eq_of_lt room
      · simp [place, same.nodes_eq]
      · dsimp only
        rw [idxOf?_push]
        by_cases here : other = term
        · subst here
          simp [found, nextEq]
        · -- In its own shard the new term stands in front of the others, which are found behind it.
          have unchanged : (Function.update sharded.shards (shardOf term)
              ((term, ⟨sharded.next⟩) :: sharded.shards (shardOf term)) (shardOf other)).lookup other =
                (sharded.shards (shardOf other)).lookup other := by
            by_cases sameShard : shardOf other = shardOf term
            · rw [sameShard, Function.update_self, List.lookup_cons, beq_false_of_ne here]
            · rw [Function.update_of_ne sameShard]
          rw [unchanged, same.lookup_eq, if_neg here, Option.or_none]

theorem Matches.internAll (same : Matches shardOf sharded store) {terms : List GroundTerm}
    (room : (store.internAll terms).2.size < UInt32.size) :
    (sharded.internAll shardOf terms).1 = (store.internAll terms).1 ∧
      Matches shardOf (sharded.internAll shardOf terms).2 (store.internAll terms).2 := by
  induction terms generalizing sharded store with
  | nil => exact ⟨rfl, same⟩
  | cons term terms ih =>
      have grown : ((store.intern term).2.internAll terms).2.Extends (store.intern term).2 :=
        TermStore.extends_internAll _ terms
      obtain ⟨sameId, same⟩ := same.intern (Nat.lt_of_le_of_lt grown.size_le room)
      obtain ⟨sameIds, same⟩ := ih same room
      exact ⟨congrArg₂ List.cons sameId sameIds, same⟩

end ShardedStore

/-! ## The whole history -/

namespace TermStore

variable {terms : List GroundTerm} {store : TermStore}

/-- What can be told of the numbers that were handed out for some terms, one after another, and of the
store that keeps them. -/
structure Interned (terms : List GroundTerm) (ids : List TermId) (store : TermStore) : Prop where
  /-- Equal terms are given equal numbers, and only these. -/
  same_iff : ∀ first second : Nat, ids[first]? = ids[second]? ↔ terms[first]? = terms[second]?
  /-- After any number of terms, exactly the numbers that were handed out are resolved, to their
  terms. -/
  resolve_iff : ∀ (count : Nat) id term, (internAll {} (terms.take count)).2.resolve id = some term ↔
    ∃ place < count, terms[place]? = some term ∧ ids[place]? = some id
  /-- The numbers count up from zero in the order in which the terms first come. -/
  counted : ids.eraseDups.map (·.raw.toNat) = List.range store.size
  size_eq : store.size = terms.toFinset.card
  greatest_notMem : TermId.greatest ∉ ids
  exists_value : ∀ id ∈ ids, ∃ value, store.Denotes id value
  same_value_iff : ∀ first ∈ ids, ∀ second ∈ ids, ∀ value value',
    store.Denotes first value → store.Denotes second value' → (first = second ↔ value = value')
  args_lt : ∀ id name args, store.resolve id = some (.ctor name args) →
    ∀ arg ∈ args, arg ∈ ids ∧ arg < id
  /-- Writing a term by following its arguments comes to an end. -/
  renders_iff : ∀ id text, store.Renders id text ↔ text = store.render id
  /-- It makes no difference over which shards the terms are spread. -/
  sharded : ∀ shardOf, (ShardedStore.internAll shardOf {} terms).1 = ids ∧
    (ShardedStore.internAll shardOf {} terms).2.next.toNat = store.size ∧
      ∀ id, (ShardedStore.internAll shardOf {} terms).2.resolve id = store.resolve id

/-- Whatever terms a new store interns, as long as their arguments have been handed out before and there
are numbers for all of them, terms, numbers and values determine each other for good. -/
theorem interned_internAll {ids : List TermId} (ready : Ready terms)
    (few : terms.toFinset.card < UInt32.size) (internEq : internAll {} terms = (ids, store)) :
    Interned terms ids store := by
  have few : Few terms := few_iff.mp few
  obtain rfl : ids = terms.map (numberIn terms) := by
    rw [← ids_internAll, internEq]
  obtain rfl : (internAll {} terms).2 = store := by rw [internEq]
  have descends := ready.descends_internAll few
  have distinct : (internAll {} terms).2.Distinct := Distinct.empty.internAll terms
  have mem_iff : ∀ id, id ∈ terms.map (numberIn terms) ↔
      ∃ term, (internAll {} terms).2.resolve id = some term := fun id => by
    simp only [List.mem_map, few.resolve_eq_some_iff]
  refine
    { same_iff := few.same_iff
      resolve_iff := fun count _ _ => few.resolve_take_iff count
      counted := by rw [size_internAll, few.counted]
      size_eq := by rw [size_internAll, card_eq]
      greatest_notMem := fun member => ?_
      exists_value := fun id member => ?_
      same_value_iff := fun first _ second _ value value' denotes denotes' => ⟨?_, ?_⟩
      args_lt := fun id name args resolved arg isArg => ?_
      renders_iff := descends.renders_iff
      sharded := fun shardOf => ?_ }
  · obtain ⟨term, termMember, same⟩ := List.mem_map.mp member
    exact few.numberIn_ne_greatest termMember same
  · obtain ⟨term, resolved⟩ := (mem_iff id).mp member
    exact descends.exists_denotes resolved
  · rintro rfl
    exact denotes.unique denotes'
  · rintro rfl
    exact denotes.injective distinct denotes'
  · obtain ⟨known, less⟩ := descends id name args resolved arg isArg
    exact ⟨(mem_iff arg).mpr known, less⟩
  · have room : (internAll {} terms).2.size < UInt32.size := by rwa [size_internAll]
    obtain ⟨sameIds, same⟩ := (ShardedStore.matches_empty shardOf).internAll room
    exact ⟨sameIds.trans (ids_internAll terms), same.next_eq, same.resolve_eq⟩

/-- Some numbers and constructors over them, one of them twice. -/
theorem interned_internAll_sample :
    ∃ store, internAll {} [.int 1, .ctor "f" [⟨0⟩], .int 1, .ctor "g" [⟨1⟩, ⟨0⟩]] =
        ([⟨0⟩, ⟨1⟩, ⟨0⟩, ⟨2⟩], store) ∧
      Interned [.int 1, .ctor "f" [⟨0⟩], .int 1, .ctor "g" [⟨1⟩, ⟨0⟩]] [⟨0⟩, ⟨1⟩, ⟨0⟩, ⟨2⟩] store := by
  have internEq : internAll {} [.int 1, .ctor "f" [⟨0⟩], .int 1, .ctor "g" [⟨1⟩, ⟨0⟩]] =
      ([⟨0⟩, ⟨1⟩, ⟨0⟩, ⟨2⟩], { terms := #[.int 1, .ctor "f" [⟨0⟩], .ctor "g" [⟨1⟩, ⟨0⟩]] }) := by
    decide +kernel
  exact ⟨_, internEq, interned_internAll (by decide +kernel) (by decide +kernel) internEq⟩

end TermStore

end Datalog
