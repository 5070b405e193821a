import Datalog.Proofs.Semantics.Value
import Mathlib.Data.List.Nodup
import Mathlib.Data.List.Perm.Subperm

/-!
# Writing values

The written form of a number is the written form of the value that it denotes.  Writing stops at a depth
that depends on the size of the store, but a value never nests deeper than this: the values along its
deepest arguments are different, and each of them has a number of its own.
-/

namespace Datalog

namespace Value

mutual

/-- How deep a value nests. -/
def depth : Value → Nat
  | .bool _ | .int _ | .str _ => 1
  | .ctor _ args => depthList args + 1

def depthList : List Value → Nat
  | [] => 0
  | value :: values => max (depth value) (depthList values)

end

theorem exists_deepest {values : List Value} (nonempty : values ≠ []) :
    ∃ value ∈ values, value.depth = depthList values := by
  induction values with
  | nil => exact absurd rfl nonempty
  | cons first values ih =>
      by_cases last : values = []
      · subst last
        exact ⟨first, List.mem_cons_self, (Nat.max_zero _).symm⟩
      · obtain ⟨value, member, deepest⟩ := ih last
        rcases Nat.le_total first.depth (depthList values) with smaller | larger
        · exact ⟨value, List.mem_cons_of_mem _ member, deepest.trans (Nat.max_eq_right smaller).symm⟩
        · exact ⟨first, List.mem_cons_self, (Nat.max_eq_left larger).symm⟩

def renderRow (row : List Value) : String :=
  Text.parenthesized (row.map fun value => value.toTerm.render)

end Value

namespace TermStore

variable {store : TermStore} {id : TermId} {value : Value}

theorem Denotes.exists_resolve (denotes : store.Denotes id value) :
    ∃ term, store.resolve id = some term := by
  cases value with
  | bool | int | str => exact ⟨_, denotes⟩
  | ctor name values =>
      obtain ⟨args, resolved, -⟩ := denotes
      exact ⟨_, resolved⟩

theorem Denotes.lt_size (denotes : store.Denotes id value) : id.raw.toNat < store.size := by
  obtain ⟨term, resolved⟩ := denotes.exists_resolve
  exact (Array.getElem?_eq_some_iff.mp resolved).1

/-- A value that nests deep has as many numbers, of values that do not nest deeper. -/
theorem exists_chain (bound : Nat) : ∀ {id : TermId} {value : Value}, value.depth = bound →
    store.Denotes id value → ∃ ids : List TermId, ids.Nodup ∧ ids.length = bound ∧
      ∀ other ∈ ids, ∃ inner, store.Denotes other inner ∧ inner.depth ≤ bound := by
  induction bound with
  | zero => exact fun _ _ => ⟨[], List.nodup_nil, rfl, fun _ member => by cases member⟩
  | succ bound ih =>
      intro id value depthEq denotes
      have below : ∃ ids : List TermId, ids.Nodup ∧ ids.length = bound ∧
          ∀ other ∈ ids, ∃ inner, store.Denotes other inner ∧ inner.depth ≤ bound := by
        cases value with
        | bool | int | str =>
            obtain rfl : 0 = bound := Nat.succ.inj depthEq
            exact ⟨[], List.nodup_nil, rfl, fun _ member => by cases member⟩
        | ctor name values =>
            obtain ⟨args, -, denotesArgs⟩ := denotes
            have deepest : Value.depthList values = bound := Nat.succ.inj depthEq
            by_cases bare : values = []
            · subst bare
              subst deepest
              exact ⟨[], List.nodup_nil, rfl, fun _ member => by cases member⟩
            · obtain ⟨arg, isArg, argDepth⟩ := Value.exists_deepest bare
              obtain ⟨argId, -, denotesArg⟩ := exists_left_of_forall₂ (denotesAll_iff_forall₂.mp denotesArgs) isArg
              exact ih (argDepth.trans deepest) denotesArg
      obtain ⟨ids, nodup, length, shallow⟩ := below
      -- A value that nests deeper than the others denote cannot be one of them, so its number is new.
      refine ⟨id :: ids, List.nodup_cons.mpr ⟨?_, nodup⟩, by rw [List.length_cons, length], ?_⟩
      · intro again
        obtain ⟨inner, denotesInner, innerDepth⟩ := shallow id again
        rw [denotesInner.unique denotes, depthEq] at innerDepth
        omega
      · intro other member
        rcases List.mem_cons.mp member with rfl | further
        · exact ⟨value, denotes, Nat.le_of_eq depthEq⟩
        · obtain ⟨inner, denotesInner, innerDepth⟩ := shallow other further
          exact ⟨inner, denotesInner, Nat.le_succ_of_le innerDepth⟩

/-- No value nests deeper than there are terms. -/
theorem Denotes.depth_le_size (denotes : store.Denotes id value) : value.depth ≤ store.size := by
  obtain ⟨ids, nodup, length, each⟩ := exists_chain value.depth rfl denotes
  have injective : Function.Injective fun other : TermId => other.raw.toNat := by
    rintro ⟨first⟩ ⟨second⟩ same
    exact congrArg TermId.mk (UInt32.toNat_inj.mp same)
  have places := (List.nodup_map_iff injective).mpr nodup
  have inside : (ids.map fun other => other.raw.toNat) ⊆ List.range store.size := by
    intro place member
    obtain ⟨other, isOther, rfl⟩ := List.mem_map.mp member
    obtain ⟨inner, denotesInner, -⟩ := each other isOther
    exact List.mem_range.mpr denotesInner.lt_size
  have fits := (places.subperm inside).length_le
  rwa [List.length_map, List.length_range, length] at fits

mutual

theorem renderTo_of_denotes : {value : Value} → {id : TermId} → {depth : Nat} →
    store.Denotes id value → value.depth ≤ depth → store.renderTo depth id = value.toTerm.render
  | value, id, 0, _, shallow => by
      cases value <;> simp [Value.depth] at shallow
  | .bool value, id, depth + 1, denotes, _ => by
      simp only [Denotes] at denotes
      rw [renderTo, denotes]
      rfl
  | .int value, id, depth + 1, denotes, _ => by
      simp only [Denotes] at denotes
      rw [renderTo, denotes]
      rfl
  | .str value, id, depth + 1, denotes, _ => by
      simp only [Denotes] at denotes
      rw [renderTo, denotes]
      rfl
  | .ctor name values, id, depth + 1, denotes, shallow => by
      obtain ⟨args, resolved, denotesArgs⟩ := denotes
      rw [renderTo, resolved]
      have rendered := renderAllTo_of_denotes denotesArgs (Nat.le_of_succ_le_succ shallow)
      exact congrArg (Term.renderCtor name) rendered

theorem renderAllTo_of_denotes : {values : List Value} → {ids : List TermId} → {depth : Nat} →
    store.DenotesAll ids values → Value.depthList values ≤ depth →
      ids.map (store.renderTo depth) = Term.renderList (Value.toTermList values)
  | [], [], _, _, _ => rfl
  | value :: values, id :: ids, depth, denotes, shallow => by
      obtain ⟨first, others⟩ := Nat.max_le.mp shallow
      rw [List.map_cons, renderTo_of_denotes denotes.1 first, renderAllTo_of_denotes denotes.2 others]
      rfl
  | [], _ :: _, _, denotes, _ => by simp [DenotesAll] at denotes
  | _ :: _, [], _, denotes, _ => by simp [DenotesAll] at denotes

end

/-- A number is written as the value that it denotes. -/
theorem render_of_denotes (denotes : store.Denotes id value) :
    store.render id = value.toTerm.render :=
  renderTo_of_denotes denotes (Nat.le_succ_of_le denotes.depth_le_size)

theorem renderTuple_of_denotes {tuple : Tuple} {row : List Value}
    (denotes : store.DenotesAll tuple row) : store.renderTuple tuple = Value.renderRow row := by
  have each := (denotesAll_iff_forall₂.mp denotes).imp fun _ _ => render_of_denotes
  have texts : tuple.map store.render = row.map fun value => value.toTerm.render := by
    rw [← List.forall₂_eq_eq_eq, List.forall₂_map_left_iff, List.forall₂_map_right_iff]
    exact each
  rw [renderTuple, texts, Value.renderRow]

end TermStore

end Datalog
