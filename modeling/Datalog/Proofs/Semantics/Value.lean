import Datalog.TermStore
import Mathlib.Data.List.Forall2

/-!
# Values

A value is a ground term written out.  An interned term denotes the value that is found by following
the numbers of its arguments.  Numbers and values determine each other as long as a store holds every
term once, so tuples of numbers stand for tuples of values without loss.
-/

namespace Datalog

section Forall

variable {α β : Type} {R : α → β → Prop} {first : List α} {second : List β}

theorem exists_right_of_forall₂ (related : List.Forall₂ R first second) {a : α}
    (member : a ∈ first) : ∃ b ∈ second, R a b := by
  induction related with
  | nil => simp at member
  | @cons left right first second here _ ih =>
      rcases List.mem_cons.mp member with rfl | further
      · exact ⟨right, List.mem_cons_self, here⟩
      · obtain ⟨b, inSecond, there⟩ := ih further
        exact ⟨b, List.mem_cons_of_mem _ inSecond, there⟩

theorem exists_left_of_forall₂ (related : List.Forall₂ R first second) {b : β}
    (member : b ∈ second) : ∃ a ∈ first, R a b := by
  induction related with
  | nil => simp at member
  | @cons left right first second here _ ih =>
      rcases List.mem_cons.mp member with rfl | further
      · exact ⟨left, List.mem_cons_self, here⟩
      · obtain ⟨a, inFirst, there⟩ := ih further
        exact ⟨a, List.mem_cons_of_mem _ inFirst, there⟩

end Forall

/-- A ground term written out. -/
inductive Value where
  | bool (value : Bool)
  | int (value : Int64)
  | str (value : String)
  | ctor (name : String) (args : List Value)
  deriving Inhabited

namespace Value

mutual

def toTerm : Value → Term
  | .bool value => .bool value
  | .int value => .int value
  | .str value => .str value
  | .ctor name args => .ctor name (toTermList args)

def toTermList : List Value → List Term
  | [] => []
  | value :: values => toTerm value :: toTermList values

end

end Value

namespace TermStore

/-- Every term is stored once. -/
def Distinct (store : TermStore) : Prop :=
  store.terms.toList.Nodup

/-- Fewer terms are stored than there are numbers to hand out. -/
def HasRoom (store : TermStore) : Prop :=
  store.size < TermId.greatest.raw.toNat

instance (store : TermStore) : Decidable store.HasRoom :=
  inferInstanceAs (Decidable (store.size < TermId.greatest.raw.toNat))

mutual

/-- Whether a number stands for a value. -/
def Denotes (store : TermStore) (id : TermId) : Value → Prop
  | .bool value => store.resolve id = some (.bool value)
  | .int value => store.resolve id = some (.int value)
  | .str value => store.resolve id = some (.str value)
  | .ctor name values => ∃ args, store.resolve id = some (.ctor name args) ∧ DenotesAll store args values

def DenotesAll (store : TermStore) : List TermId → List Value → Prop
  | [], [] => True
  | id :: ids, value :: values => Denotes store id value ∧ DenotesAll store ids values
  | [], _ :: _ | _ :: _, [] => False

end

theorem denotesAll_iff_forall₂ {store : TermStore} {ids : List TermId} {values : List Value} :
    store.DenotesAll ids values ↔ List.Forall₂ store.Denotes ids values := by
  induction ids generalizing values with
  | nil => cases values <;> simp [DenotesAll]
  | cons id ids ih => cases values <;> simp [DenotesAll, ih]

theorem DenotesAll.length_eq {store : TermStore} {ids : List TermId} {values : List Value}
    (denotes : store.DenotesAll ids values) : ids.length = values.length :=
  (denotesAll_iff_forall₂.mp denotes).length_eq

/-! ## Growing stores -/

theorem Extends.size_le {later earlier : TermStore} (grown : later.Extends earlier) :
    earlier.size ≤ later.size := by
  simpa [size] using List.IsPrefix.length_le grown

theorem Extends.hasRoom {later earlier : TermStore} (grown : later.Extends earlier)
    (room : later.HasRoom) : earlier.HasRoom :=
  Nat.lt_of_le_of_lt grown.size_le room

theorem Extends.resolve_eq {later earlier : TermStore} (grown : later.Extends earlier)
    {id : TermId} {term : GroundTerm} (resolved : earlier.resolve id = some term) :
    later.resolve id = some term := by
  simp only [resolve, ← Array.getElem?_toList] at resolved ⊢
  obtain ⟨added, shape⟩ := grown
  have inside : id.raw.toNat < earlier.terms.toList.length :=
    (List.getElem?_eq_some_iff.mp resolved).1
  rw [← shape, List.getElem?_append_left inside]
  exact resolved

mutual

theorem Denotes.mono {later earlier : TermStore} (grown : later.Extends earlier) :
    {id : TermId} → {value : Value} → earlier.Denotes id value → later.Denotes id value
  | _, .bool _, denotes => by
      simp only [Denotes] at denotes ⊢
      exact grown.resolve_eq denotes
  | _, .int _, denotes => by
      simp only [Denotes] at denotes ⊢
      exact grown.resolve_eq denotes
  | _, .str _, denotes => by
      simp only [Denotes] at denotes ⊢
      exact grown.resolve_eq denotes
  | _, .ctor _ _, denotes => by
      simp only [Denotes] at denotes ⊢
      obtain ⟨args, resolved, denotesArgs⟩ := denotes
      exact ⟨args, grown.resolve_eq resolved, DenotesAll.mono grown denotesArgs⟩

theorem DenotesAll.mono {later earlier : TermStore} (grown : later.Extends earlier) :
    {ids : List TermId} → {values : List Value} → earlier.DenotesAll ids values →
      later.DenotesAll ids values
  | [], [], _ => by simp [DenotesAll]
  | _ :: _, _ :: _, denotes => by
      simp only [DenotesAll] at denotes ⊢
      exact ⟨Denotes.mono grown denotes.1, DenotesAll.mono grown denotes.2⟩
  | [], _ :: _, denotes => by simp [DenotesAll] at denotes
  | _ :: _, [], denotes => by simp [DenotesAll] at denotes

end

/-! ## Numbers and values -/

mutual

theorem Denotes.unique {store : TermStore} :
    {id : TermId} → {first second : Value} → store.Denotes id first → store.Denotes id second →
      first = second
  | _, .bool _, second, denotes, denotes' => by
      cases second <;> simp only [Denotes] at denotes denotes' <;> simp_all
  | _, .int _, second, denotes, denotes' => by
      cases second <;> simp only [Denotes] at denotes denotes' <;> simp_all
  | _, .str _, second, denotes, denotes' => by
      cases second <;> simp only [Denotes] at denotes denotes' <;> simp_all
  | _, .ctor name values, second, denotes, denotes' => by
      obtain ⟨args, resolved, denotesArgs⟩ := denotes
      cases second with
      | ctor name' values' =>
          obtain ⟨args', resolved', denotesArgs'⟩ := denotes'
          obtain ⟨rfl, rfl⟩ : name = name' ∧ args = args' := by
            simpa [resolved] using resolved'
          rw [DenotesAll.unique denotesArgs denotesArgs']
      | _ =>
          simp only [Denotes] at denotes'
          simp_all

theorem DenotesAll.unique {store : TermStore} :
    {ids : List TermId} → {first second : List Value} → store.DenotesAll ids first →
      store.DenotesAll ids second → first = second
  | [], [], [], _, _ => rfl
  | _ :: _, _ :: _, _ :: _, denotes, denotes' => by
      rw [Denotes.unique denotes.1 denotes'.1, DenotesAll.unique denotes.2 denotes'.2]
  | [], _ :: _, _, denotes, _ => by simp [DenotesAll] at denotes
  | [], [], _ :: _, _, denotes' => by simp [DenotesAll] at denotes'
  | _ :: _, [], _, denotes, _ => by simp [DenotesAll] at denotes
  | _ :: _, _ :: _, [], _, denotes' => by simp [DenotesAll] at denotes'

end

theorem Distinct.resolve_injective {store : TermStore} (distinct : store.Distinct)
    {first second : TermId} {term : GroundTerm} (resolved : store.resolve first = some term)
    (resolved' : store.resolve second = some term) : first = second := by
  simp only [resolve, ← Array.getElem?_toList] at resolved resolved'
  have inside : first.raw.toNat < store.terms.toList.length :=
    (List.getElem?_eq_some_iff.mp resolved).1
  have sameNat : first.raw.toNat = second.raw.toNat :=
    (List.getElem?_inj inside distinct).mp (resolved.trans resolved'.symm)
  cases first
  cases second
  simpa using UInt32.toNat_inj.mp sameNat

mutual

theorem Denotes.injective {store : TermStore} (distinct : store.Distinct) :
    {first second : TermId} → {value : Value} → store.Denotes first value →
      store.Denotes second value → first = second
  | _, _, .bool _, denotes, denotes' => by
      simp only [Denotes] at denotes denotes'
      exact distinct.resolve_injective denotes denotes'
  | _, _, .int _, denotes, denotes' => by
      simp only [Denotes] at denotes denotes'
      exact distinct.resolve_injective denotes denotes'
  | _, _, .str _, denotes, denotes' => by
      simp only [Denotes] at denotes denotes'
      exact distinct.resolve_injective denotes denotes'
  | _, _, .ctor _ _, denotes, denotes' => by
      obtain ⟨args, resolved, denotesArgs⟩ := denotes
      obtain ⟨args', resolved', denotesArgs'⟩ := denotes'
      obtain rfl := DenotesAll.injective distinct denotesArgs denotesArgs'
      exact distinct.resolve_injective resolved resolved'

theorem DenotesAll.injective {store : TermStore} (distinct : store.Distinct) :
    {first second : List TermId} → {values : List Value} → store.DenotesAll first values →
      store.DenotesAll second values → first = second
  | [], [], [], _, _ => rfl
  | _ :: _, _ :: _, _ :: _, denotes, denotes' => by
      rw [Denotes.injective distinct denotes.1 denotes'.1,
        DenotesAll.injective distinct denotes.2 denotes'.2]
  | _ :: _, _, [], denotes, _ => by simp [DenotesAll] at denotes
  | [], _, _ :: _, denotes, _ => by simp [DenotesAll] at denotes
  | [], _ :: _, [], _, denotes' => by simp [DenotesAll] at denotes'
  | _ :: _, [], _ :: _, _, denotes' => by simp [DenotesAll] at denotes'

end

/-! ## Interning -/

theorem Distinct.empty : ({} : TermStore).Distinct := by
  simp [Distinct]

theorem Distinct.intern {store : TermStore} (distinct : store.Distinct) (term : GroundTerm) :
    (store.intern term).2.Distinct := by
  unfold TermStore.intern
  split
  · exact distinct
  · next absent =>
      rw [Array.idxOf?_eq_none_iff] at absent
      simp only [Distinct, Array.toList_push] at distinct ⊢
      rw [List.nodup_append]
      refine ⟨distinct, by simp, ?_⟩
      rintro stored present added addedEq rfl
      simp only [List.mem_singleton] at addedEq
      subst addedEq
      exact absent (Array.mem_toList_iff.mp present)

/-- The number that interning hands out stands for the term, unless the store has run full. -/
theorem resolve_intern {store : TermStore} {term : GroundTerm}
    (room : (store.intern term).2.HasRoom) :
    (store.intern term).2.resolve (store.intern term).1 = some term := by
  unfold TermStore.intern at room ⊢
  split at room
  · next index found =>
      rw [← @Array.toArray_toList _ store.terms, List.idxOf?_toArray,
        List.idxOf?_eq_some_iff] at found
      obtain ⟨inside, atIndex, _⟩ := found
      have small : index < 2 ^ 32 := by
        simp only [HasRoom, size] at room
        have : TermId.greatest.raw.toNat < 2 ^ 32 := by decide
        rw [Array.length_toList] at inside
        omega
      simp only [resolve, UInt32.toNat_ofNat', Nat.mod_eq_of_lt small, ← Array.getElem?_toList]
      rw [List.getElem?_eq_getElem inside, atIndex]
  · next absent =>
      have small : store.terms.size < 2 ^ 32 := by
        simp only [HasRoom, size, Array.size_push] at room
        have : TermId.greatest.raw.toNat < 2 ^ 32 := by decide
        omega
      simp only [resolve, UInt32.toNat_ofNat', Nat.mod_eq_of_lt small, Array.getElem?_push_size]

theorem denotes_intern_ctor {store : TermStore} {name : String} {ids : List TermId}
    {values : List Value} (denotes : store.DenotesAll ids values)
    (room : (store.intern (.ctor name ids)).2.HasRoom) :
    (store.intern (.ctor name ids)).2.Denotes (store.intern (.ctor name ids)).1
      (.ctor name values) :=
  ⟨ids, resolve_intern room, denotes.mono (extends_intern store _)⟩

end TermStore

end Datalog
