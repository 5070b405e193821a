import Datalog.Evaluation.Engine
import Datalog.Proofs.Semantics.Value

/-!
# Outcomes of computations

What a computation leaves behind is described by two conditions: one on the value and the state that
it ends with, and one on the error and the state that it stops with.  The terms of a state only ever
grow.  A condition is promised *with room* if it holds unless the terms have run full by the end; since
the terms grow, there was room all along then.
-/

namespace Datalog

variable {ε σ α β : Type}

/-- A computation that ends leaves a value and a state as described, and so does one that stops. -/
def Leaves (computation : EStateM ε σ α) (start : σ) (done : α → σ → Prop)
    (stopped : ε → σ → Prop) : Prop :=
  match computation start with
  | .ok value state => done value state
  | .error error state => stopped error state

section Leaves

variable {start : σ} {done done' : α → σ → Prop} {stopped stopped' : ε → σ → Prop}

theorem Leaves.of_ok {computation : EStateM ε σ α} (leaves : Leaves computation start done stopped)
    {value : α} {state : σ} (outcome : computation start = .ok value state) : done value state := by
  rwa [Leaves, outcome] at leaves

theorem Leaves.of_error {computation : EStateM ε σ α}
    (leaves : Leaves computation start done stopped) {error : ε} {state : σ}
    (outcome : computation start = .error error state) : stopped error state := by
  rwa [Leaves, outcome] at leaves

theorem Leaves.mono {computation : EStateM ε σ α} (leaves : Leaves computation start done stopped)
    (weaker : ∀ value state, done value state → done' value state)
    (weaker' : ∀ error state, stopped error state → stopped' error state) :
    Leaves computation start done' stopped' := by
  unfold Leaves at leaves ⊢
  split at leaves
  · exact weaker _ _ leaves
  · exact weaker' _ _ leaves

theorem Leaves.imp_done {computation : EStateM ε σ α}
    (leaves : Leaves computation start done stopped)
    (weaker : ∀ value state, done value state → done' value state) :
    Leaves computation start done' stopped :=
  leaves.mono weaker fun _ _ isStopped => isStopped

theorem Leaves.imp_stopped {computation : EStateM ε σ α}
    (leaves : Leaves computation start done stopped)
    (weaker : ∀ error state, stopped error state → stopped' error state) :
    Leaves computation start done stopped' :=
  leaves.mono (fun _ _ isDone => isDone) weaker

theorem Leaves.and {computation : EStateM ε σ α} (leaves : Leaves computation start done stopped)
    (leaves' : Leaves computation start done' stopped') :
    Leaves computation start (fun value state => done value state ∧ done' value state)
      (fun error state => stopped error state ∧ stopped' error state) := by
  unfold Leaves at leaves leaves' ⊢
  split at leaves <;> simp_all

theorem bind_eq_ok {first : EStateM ε σ α} {next : α → EStateM ε σ β} {value : β} {state : σ} :
    (first >>= next) start = .ok value state ↔
      ∃ middle between, first start = .ok middle between ∧
        next middle between = .ok value state := by
  simp only [bind, EStateM.bind]
  cases first start <;> simp

theorem bind_eq_error {first : EStateM ε σ α} {next : α → EStateM ε σ β} {error : ε} {state : σ} :
    (first >>= next) start = .error error state ↔
      first start = .error error state ∨
        ∃ middle between, first start = .ok middle between ∧
          next middle between = .error error state := by
  simp only [bind, EStateM.bind]
  cases first start <;> simp

theorem leaves_bind {first : EStateM ε σ α} {next : α → EStateM ε σ β}
    {done : β → σ → Prop} :
    Leaves (first >>= next) start done stopped ↔
      Leaves first start (fun value state => Leaves (next value) state done stopped) stopped := by
  simp only [Leaves, bind, EStateM.bind]
  cases first start <;> rfl

theorem Leaves.bind {first : EStateM ε σ α} {next : α → EStateM ε σ β} {middle : α → σ → Prop}
    {done : β → σ → Prop} (leaves : Leaves first start middle stopped)
    (nextLeaves : ∀ value state, middle value state → Leaves (next value) state done stopped) :
    Leaves (first >>= next) start done stopped :=
  leaves_bind.mpr (leaves.mono nextLeaves fun _ _ isStopped => isStopped)

/-- Two computations in two steps come to the same if both steps do. -/
theorem bind_congr_of_leaves {first first' : EStateM ε σ α} {next next' : α → EStateM ε σ β}
    {middle : α → σ → Prop} (same : first start = first' start)
    (leaves : Leaves first' start middle stopped)
    (sameNext : ∀ value state, middle value state → next value state = next' value state) :
    (first >>= next) start = (first' >>= next') start := by
  simp only [bind, EStateM.bind, same]
  cases outcome : first' start with
  | ok value state => exact sameNext value state (leaves.of_ok outcome)
  | error error state => rfl

theorem leaves_get {done : σ → σ → Prop} :
    Leaves (get : EStateM ε σ σ) start done stopped ↔ done start start :=
  Iff.rfl

theorem leaves_set {state : σ} {done : PUnit → σ → Prop} :
    Leaves (set state : EStateM ε σ PUnit) start done stopped ↔ done ⟨⟩ state :=
  Iff.rfl

theorem leaves_modify {change : σ → σ} {done : PUnit → σ → Prop} :
    Leaves (modify change : EStateM ε σ PUnit) start done stopped ↔ done ⟨⟩ (change start) :=
  Iff.rfl

theorem leaves_modifyGet {change : σ → α × σ} :
    Leaves (modifyGet change : EStateM ε σ α) start done stopped ↔
      done (change start).1 (change start).2 :=
  Iff.rfl

end Leaves

/-! ## Growing terms -/

/-- States that hold interned terms. -/
class Interning (State : Type) where
  terms : State → TermStore

instance : Interning TermStore := ⟨id⟩

instance : Interning Bindings := ⟨Bindings.terms⟩

instance : Interning Workspace := ⟨Workspace.terms⟩

instance : Interning TaskState := ⟨fun state => state.workspace.terms⟩

instance : Interning Machine := ⟨fun machine => machine.workspace.terms⟩

instance : Interning Evaluation := ⟨Evaluation.terms⟩

open Interning (terms)

variable [Interning σ]

/-- A computation keeps all terms, whether it ends or stops. -/
def Interns (computation : EStateM ε σ α) : Prop :=
  ∀ start, Leaves computation start (fun _ state => (terms state).Extends (terms start))
    fun _ state => (terms state).Extends (terms start)

section Interns

theorem Interns.pure {value : α} : Interns (pure value : EStateM ε σ α) :=
  fun start => .refl (terms start)

theorem Interns.throw {error : ε} : Interns (throw error : EStateM ε σ α) :=
  fun start => .refl (terms start)

theorem Interns.bind {first : EStateM ε σ α} {next : α → EStateM ε σ β} (interns : Interns first)
    (nextInterns : ∀ value, Interns (next value)) : Interns (first >>= next) := by
  intro start
  rw [leaves_bind]
  refine (interns start).mono (fun value middle grown => ?_) fun _ _ grown => grown
  exact (nextInterns value middle).mono (fun _ _ grown' => grown'.trans grown)
    fun _ _ grown' => grown'.trans grown

theorem Interns.get_bind {next : σ → EStateM ε σ β} (nextInterns : ∀ state, Interns (next state)) :
    Interns (get >>= next) :=
  .bind (fun start => .refl (terms start)) nextInterns

theorem Interns.ite {condition : Prop} [Decidable condition] {first second : EStateM ε σ α}
    (interns : Interns first) (interns' : Interns second) :
    Interns (if condition then first else second) := by
  split
  · exact interns
  · exact interns'

theorem Interns.modifyGet {change : σ → α × σ}
    (unchanged : ∀ state, terms (change state).2 = terms state) :
    Interns (modifyGet change : EStateM ε σ α) := by
  intro start
  rw [leaves_modifyGet, unchanged]
  exact .refl _

theorem Interns.modify {change : σ → σ} (unchanged : ∀ state, terms (change state) = terms state) :
    Interns (modify change : EStateM ε σ PUnit) :=
  .modifyGet unchanged

end Interns

section Keeps

/-- A computation keeps a condition on the terms, whether it ends or stops. -/
def Keeps (holds : TermStore → Prop) (computation : EStateM ε σ α) : Prop :=
  ∀ start, holds (terms start) → Leaves computation start (fun _ state => holds (terms state))
    fun _ state => holds (terms state)

variable {holds : TermStore → Prop}

theorem Keeps.pure {value : α} : Keeps holds (pure value : EStateM ε σ α) :=
  fun _ held => held

theorem Keeps.throw {error : ε} : Keeps holds (throw error : EStateM ε σ α) :=
  fun _ held => held

theorem Keeps.bind {first : EStateM ε σ α} {next : α → EStateM ε σ β} (keeps : Keeps holds first)
    (nextKeeps : ∀ value, Keeps holds (next value)) : Keeps holds (first >>= next) :=
  fun start held => (keeps start held).bind fun value middle => nextKeeps value middle

theorem Keeps.get_bind {next : σ → EStateM ε σ β} (nextKeeps : ∀ state, Keeps holds (next state)) :
    Keeps holds (get >>= next) :=
  .bind (fun _ held => held) nextKeeps

theorem Keeps.ite {condition : Prop} [Decidable condition] {first second : EStateM ε σ α}
    (keeps : Keeps holds first) (keeps' : Keeps holds second) :
    Keeps holds (if condition then first else second) := by
  split
  · exact keeps
  · exact keeps'

theorem Keeps.modifyGet {change : σ → α × σ}
    (unchanged : ∀ state, terms (change state).2 = terms state) :
    Keeps holds (modifyGet change : EStateM ε σ α) := by
  intro start held
  rw [leaves_modifyGet, unchanged]
  exact held

theorem Keeps.modify {change : σ → σ} (unchanged : ∀ state, terms (change state) = terms state) :
    Keeps holds (modify change : EStateM ε σ PUnit) :=
  .modifyGet unchanged

/-- A computation keeps all terms if it keeps whatever terms were there before. -/
theorem interns_iff_keeps {computation : EStateM ε σ α} :
    Interns computation ↔ ∀ earlier, Keeps (fun store => store.Extends earlier) computation := by
  constructor
  · intro interns earlier start grown
    exact (interns start).mono (fun _ _ grown' => grown'.trans grown)
      fun _ _ grown' => grown'.trans grown
  · exact fun keeps start => keeps (terms start) start (.refl (terms start))

end Keeps

/-! ## Promises with room -/

/-- What a computation leaves behind unless the terms have run full. -/
def LeavesWithRoom (computation : EStateM ε σ α) (start : σ) (done : α → σ → Prop)
    (stopped : ε → σ → Prop) : Prop :=
  Leaves computation start (fun value state => (terms state).HasRoom → done value state)
    fun error state => (terms state).HasRoom → stopped error state

namespace LeavesWithRoom

variable {start : σ} {done done' : α → σ → Prop} {stopped stopped' : ε → σ → Prop}

theorem pure {value : α} (isDone : done value start) :
    LeavesWithRoom (pure value : EStateM ε σ α) start done stopped :=
  fun _ => isDone

theorem throw {error : ε} (isStopped : stopped error start) :
    LeavesWithRoom (throw error : EStateM ε σ α) start done stopped :=
  fun _ => isStopped

/-- What is described may be what a computation that has ended leaves behind. -/
theorem of_ended {computation : EStateM ε σ α}
    (leaves : ∀ value state, computation start = .ok value state → (terms state).HasRoom →
      done value state) :
    LeavesWithRoom computation start done fun _ _ => True := by
  unfold LeavesWithRoom Leaves
  split
  · next value state outcome => exact leaves value state outcome
  · exact fun _ => trivial

theorem of_leaves {computation : EStateM ε σ α}
    (leaves : Leaves computation start done stopped) :
    LeavesWithRoom computation start done stopped :=
  leaves.mono (fun _ _ isDone _ => isDone) fun _ _ isStopped _ => isStopped

theorem mono {computation : EStateM ε σ α} (leaves : LeavesWithRoom computation start done stopped)
    (weaker : ∀ value state, done value state → done' value state)
    (weaker' : ∀ error state, stopped error state → stopped' error state) :
    LeavesWithRoom computation start done' stopped' :=
  Leaves.mono leaves (fun value state isDone room => weaker value state (isDone room))
    fun error state isStopped room => weaker' error state (isStopped room)

theorem and {computation : EStateM ε σ α} (leaves : LeavesWithRoom computation start done stopped)
    (leaves' : LeavesWithRoom computation start done' stopped') :
    LeavesWithRoom computation start (fun value state => done value state ∧ done' value state)
      (fun error state => stopped error state ∧ stopped' error state) :=
  (Leaves.and leaves leaves').mono (fun _ _ both room => ⟨both.1 room, both.2 room⟩)
    fun _ _ both room => ⟨both.1 room, both.2 room⟩

theorem grown {computation : EStateM ε σ α} (leaves : LeavesWithRoom computation start done stopped)
    (interns : Interns computation) :
    LeavesWithRoom computation start
      (fun value state => done value state ∧ (terms state).Extends (terms start))
      (fun error state => stopped error state ∧ (terms state).Extends (terms start)) :=
  (Leaves.and leaves (interns start)).mono (fun _ _ both room => ⟨both.1 room, both.2⟩)
    fun _ _ both room => ⟨both.1 room, both.2⟩

/-- One computation after another: there was room for the first if there is for the second. -/
theorem bind {first : EStateM ε σ α} {next : α → EStateM ε σ β} {middle : α → σ → Prop}
    {done : β → σ → Prop} (leaves : LeavesWithRoom first start middle stopped)
    (interns : ∀ value, Interns (next value))
    (nextLeaves : ∀ value state, middle value state →
      LeavesWithRoom (next value) state done stopped) :
    LeavesWithRoom (first >>= next) start done stopped := by
  unfold LeavesWithRoom
  rw [leaves_bind]
  refine Leaves.mono leaves (fun value state isMiddle => ?_) fun _ _ isStopped => isStopped
  have grown := interns value state
  have leaves' := fun room => nextLeaves value state (isMiddle room)
  unfold LeavesWithRoom Leaves at leaves'
  unfold Leaves at grown ⊢
  cases outcome : next value state with
  | ok result last =>
      rw [outcome] at grown leaves'
      exact fun room => leaves' (grown.hasRoom room) room
  | error error last =>
      rw [outcome] at grown leaves'
      exact fun room => leaves' (grown.hasRoom room) room

theorem get_bind {next : σ → EStateM ε σ β} {done : β → σ → Prop}
    (leaves : LeavesWithRoom (next start) start done stopped) :
    LeavesWithRoom (get >>= next) start done stopped := by
  unfold LeavesWithRoom
  rw [leaves_bind]
  exact leaves

theorem modifyGet_bind {change : σ → α × σ} {next : α → EStateM ε σ β} {done : β → σ → Prop}
    (leaves : LeavesWithRoom (next (change start).1) (change start).2 done stopped) :
    LeavesWithRoom (modifyGet change >>= next) start done stopped := by
  unfold LeavesWithRoom
  rw [leaves_bind]
  exact leaves

end LeavesWithRoom

end Datalog
