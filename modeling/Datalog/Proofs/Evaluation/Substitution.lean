import Datalog.Evaluation.Matching
import Datalog.Proofs.Semantics.Meaning

/-!
# Substitutions and assignments

A substitution extends another one if it results from it by binding slots that had no value; undoing
these bindings restores it.  An assignment agrees with a substitution if it gives every variable whose
slot is bound the value that the slot stands for.
-/

namespace Datalog

namespace Substitution

/-- A substitution results from another one by binding unbound slots. -/
inductive Extends : Substitution → Substitution → Prop where
  | refl (substitution : Substitution) : Extends substitution substitution
  | bind {later earlier : Substitution} (extended : Extends later earlier) {slot : Nat}
      (unbound : later.slots[slot]? = some none) (value : TermId) :
      Extends (later.bind slot value) earlier

variable {first second third : Substitution}

theorem Extends.trans (right : third.Extends second) (left : second.Extends first) :
    third.Extends first := by
  induction right with
  | refl => exact left
  | bind _ unbound value ih => exact .bind (ih left) unbound value

theorem Extends.trail_length_le (extended : second.Extends first) :
    first.trail.length ≤ second.trail.length := by
  induction extended with
  | refl => exact Nat.le_refl _
  | bind _ _ _ ih =>
      simp only [Substitution.bind, List.length_append, List.length_singleton]
      omega

theorem Extends.slots_length_eq (extended : second.Extends first) :
    second.slots.length = first.slots.length := by
  induction extended with
  | refl => rfl
  | bind _ _ _ ih => simpa [Substitution.bind] using ih

theorem Extends.slots_of_bound (extended : second.Extends first) {slot : Nat} {value : TermId}
    (bound : first.slots[slot]? = some (some value)) :
    second.slots[slot]? = some (some value) := by
  induction extended with
  | refl => exact bound
  | @bind later earlier _ other unbound value' ih =>
      have apart : other ≠ slot := by
        rintro rfl
        simp [ih bound] at unbound
      simp only [Substitution.bind, List.getElem?_set_ne apart]
      exact ih bound

private def unset (slots : List (Option TermId)) (trail : List Nat) : List (Option TermId) :=
  trail.foldl (fun slots slot => slots.set slot none) slots

private theorem unset_unbound {slots : List (Option TermId)} {slot : Nat}
    (unbound : slots[slot]? = some none) (trail : List Nat) : (unset slots trail)[slot]? = some none := by
  induction trail generalizing slots with
  | nil => exact unbound
  | cons first trail ih =>
      refine ih ?_
      by_cases same : first = slot
      · subst same
        have inside := (List.getElem?_eq_some_iff.mp unbound).1
        rw [List.getElem?_set_self inside]
      · rwa [List.getElem?_set_ne same]

private theorem unset_set (slots : List (Option TermId)) (trail : List Nat) (slot : Nat)
    (value : Option TermId) :
    (unset (slots.set slot value) trail).set slot none = (unset slots trail).set slot none := by
  induction trail generalizing slots with
  | nil => simp [unset]
  | cons first trail ih =>
      change (unset ((slots.set slot value).set first none) trail).set slot none =
        (unset (slots.set first none) trail).set slot none
      by_cases same : first = slot
      · subst same
        rw [List.set_set]
      · rw [List.set_comm value none (Ne.symm same)]
        exact ih _

private theorem unset_bind {slots : List (Option TermId)} {slot : Nat}
    (unbound : slots[slot]? = some none) (trail : List Nat) (value : TermId) :
    unset (slots.set slot (some value)) (trail ++ [slot]) = unset slots trail := by
  have stays := unset_unbound unbound trail
  have appended : unset (slots.set slot (some value)) (trail ++ [slot]) =
      (unset (slots.set slot (some value)) trail).set slot none := by
    simp [unset, List.foldl_append]
  rw [appended, unset_set]
  obtain ⟨inside, atSlot⟩ := List.getElem?_eq_some_iff.mp stays
  rw [← atSlot, List.set_getElem_self]

/-- Undoing the bindings that were added gives the earlier substitution back. -/
theorem Extends.rollback_eq (extended : second.Extends first) :
    second.rollback first.checkpoint = first := by
  induction extended with
  | refl substitution => simp [rollback, checkpoint]
  | @bind later earlier before slot unbound value ih =>
      have enough : earlier.trail.length ≤ later.trail.length := before.trail_length_le
      refine Eq.trans ?_ ih
      have restored := unset_bind unbound (later.trail.drop earlier.trail.length) value
      unfold unset at restored
      simp only [rollback, checkpoint, Substitution.bind,
        List.drop_append_of_le_length enough, List.take_append_of_le_length enough, restored]

end Substitution

/-! ## Agreement -/

namespace Bindings

/-- An assignment gives the variables of bound slots the values that the slots stand for. -/
def Agrees (names : List String) (bindings : Bindings) (assignment : Assignment) : Prop :=
  ∀ (slot : Nat) id name, bindings.substitution.slots[slot]? = some (some id) → names[slot]? = some name →
    bindings.terms.Denotes id (assignment name)

/-- Every bound slot stands for a value. -/
def Grounded (bindings : Bindings) : Prop :=
  ∀ (slot : Nat) id, bindings.substitution.slots[slot]? = some (some id) →
    ∃ value, bindings.terms.Denotes id value

/-- Terms may be added and unbound slots may be bound. -/
structure Extends (later earlier : Bindings) : Prop where
  terms : later.terms.Extends earlier.terms
  substitution : later.substitution.Extends earlier.substitution

variable {names : List String} {first second third : Bindings} {assignment : Assignment}

theorem Extends.trans (right : third.Extends second) (left : second.Extends first) :
    third.Extends first :=
  ⟨right.terms.trans left.terms, right.substitution.trans left.substitution⟩

theorem Extends.agrees (extended : second.Extends first) (grounded : first.Grounded)
    (agrees : second.Agrees names assignment) : first.Agrees names assignment := by
  intro slot id name bound named
  obtain ⟨value, denotes⟩ := grounded slot id bound
  have later := agrees slot id name (extended.substitution.slots_of_bound bound) named
  rwa [later.unique (denotes.mono extended.terms)]

theorem Agrees.mono (agrees : first.Agrees names assignment)
    (grown : second.terms.Extends first.terms) (same : second.substitution = first.substitution) :
    second.Agrees names assignment := by
  intro slot id name bound named
  rw [same] at bound
  exact (agrees slot id name bound named).mono grown

theorem Grounded.mono (grounded : first.Grounded) (grown : second.terms.Extends first.terms)
    (same : second.substitution = first.substitution) : second.Grounded := by
  intro slot id bound
  rw [same] at bound
  obtain ⟨value, denotes⟩ := grounded slot id bound
  exact ⟨value, denotes.mono grown⟩

/-- Some assignment agrees with bindings that stand for values. -/
theorem Grounded.exists_agrees (grounded : first.Grounded) (distinctNames : names.Nodup) :
    ∃ assignment, first.Agrees names assignment := by
  classical
  have choice : ∀ name, ∃ value : Value, ∀ (slot : Nat) id,
      first.substitution.slots[slot]? = some (some id) → names[slot]? = some name →
        first.terms.Denotes id value := by
    intro name
    by_cases bound : ∃ (slot : Nat) (id : TermId), first.substitution.slots[slot]? = some (some id) ∧
        names[slot]? = some name
    · obtain ⟨slot, id, atSlot, named⟩ := bound
      obtain ⟨value, denotes⟩ := grounded slot id atSlot
      refine ⟨value, fun other id' atOther named' => ?_⟩
      have inside := (List.getElem?_eq_some_iff.mp named).1
      obtain rfl : slot = other := (List.getElem?_inj inside distinctNames).mp
        (named.trans named'.symm)
      rw [atSlot, Option.some.injEq, Option.some.injEq] at atOther
      exact atOther ▸ denotes
    · exact ⟨default, fun slot id atSlot named => absurd ⟨slot, id, atSlot, named⟩ bound⟩
  exact ⟨fun name => (choice name).choose, fun slot id name => (choice name).choose_spec slot id⟩

theorem agrees_unbound (terms : TermStore) (count : Nat) (assignment : Assignment) :
    Agrees names { terms, substitution := .unbound count } assignment := by
  intro slot id name bound
  simp [Substitution.unbound, List.getElem?_replicate] at bound

theorem grounded_unbound (terms : TermStore) (count : Nat) :
    Grounded { terms, substitution := .unbound count } := by
  intro slot id bound
  simp [Substitution.unbound, List.getElem?_replicate] at bound

end Bindings

end Datalog
