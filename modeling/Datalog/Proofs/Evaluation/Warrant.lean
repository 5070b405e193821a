import Datalog.Proofs.Safety.Stores
import Datalog.Proofs.Semantics.Subterms

/-!
# Warrants for numbers

Tasks pass numbers on from tuples to slots, from slots to calls and from there to further tuples.  A
warrant is a promise about these numbers.  If evaluation keeps it for the terms that it covers, then every
number that matching and base facts come up with is warranted.  A warrant that covers everything is kept
if interning and calls keep it.
-/

namespace Datalog

/-- A promise about the terms of a store and about their numbers.  More terms do not take it away, and it
passes on to the arguments of a term.  It covers the values of some planned terms, and perhaps those of
base facts. -/
structure Warrant where
  terms : TermStore → Prop
  number : TermStore → TermId → Prop
  covers : PlanTerm → Prop
  coversFacts : Prop
  mono : ∀ {later store : TermStore} {id : TermId}, later.Extends store → number store id →
    number later id
  args : ∀ {store : TermStore} {id : TermId} {term : GroundTerm}, number store id →
    store.resolve id = some term → ∀ arg ∈ term.args, number store arg

/-- The numbers of all values in a term are warranted. -/
def Warrant.HoldsFor (warrant : Warrant) (store : TermStore) (term : Term) : Prop :=
  ∀ part : Value, part.toTerm ∈ term.subterms → ∀ id, (store.HasRoom → store.Denotes id part) →
    warrant.number store id

/-! ## Vouching computations -/

/-- A computation keeps all terms and a condition on the state, and its result meets another condition. -/
def Vouches {ε σ α : Type} [Interning σ] (good : σ → Prop) (result : α → σ → Prop) (start : σ)
    (computation : EStateM ε σ α) : Prop :=
  Leaves computation start
    (fun value later => good later ∧
      (Interning.terms later).Extends (Interning.terms start) ∧ result value later)
    fun _ later => good later

namespace Vouches

variable {ε σ α β : Type} [Interning σ] {good : σ → Prop} {start : σ}
  {result weaker : α → σ → Prop} {computation : EStateM ε σ α}

theorem of_leaves (leaves : Leaves computation start
      (fun value later => good later ∧ result value later) fun _ later => good later)
    (interns : Interns computation) : Vouches good result start computation :=
  (leaves.and (interns start)).mono (fun _ _ both => ⟨both.1.1, both.2, both.1.2⟩)
    fun _ _ both => both.1

theorem pure {value : α} (isGood : good start) (isResult : result value start) :
    Vouches good result start (pure value : EStateM ε σ α) :=
  ⟨isGood, .refl _, isResult⟩

theorem throw {error : ε} (isGood : good start) :
    Vouches good result start (throw error : EStateM ε σ α) :=
  isGood

theorem mono (vouches : Vouches good result start computation)
    (implied : ∀ value later, result value later → weaker value later) :
    Vouches good weaker start computation :=
  Leaves.imp_done vouches fun value later kept => ⟨kept.1, kept.2.1, implied value later kept.2.2⟩

theorem and_leaves {other : α → σ → Prop} {stopped : ε → σ → Prop}
    (vouches : Vouches good result start computation)
    (leaves : Leaves computation start other stopped) :
    Vouches good (fun value later => result value later ∧ other value later) start computation := by
  refine (Leaves.and vouches leaves).mono ?_ fun _ _ both => both.1
  rintro value later ⟨⟨isGood, grown, isResult⟩, isOther⟩
  exact ⟨isGood, grown, isResult, isOther⟩

theorem bind {next : α → EStateM ε σ β} {middle : α → σ → Prop} {result : β → σ → Prop}
    (vouches : Vouches good middle start computation)
    (nextVouches : ∀ value later, good later →
      (Interning.terms later).Extends (Interning.terms start) → middle value later →
        Vouches good result later (next value)) :
    Vouches good result start (computation >>= next) := by
  refine Leaves.bind vouches ?_
  rintro value later ⟨isGood, grown, isMiddle⟩
  apply Leaves.imp_done (nextVouches value later isGood grown isMiddle)
  exact fun _ _ kept => ⟨kept.1, kept.2.1.trans grown, kept.2.2⟩

theorem get_bind {next : σ → EStateM ε σ β} {result : β → σ → Prop}
    (vouches : Vouches good result start (next start)) :
    Vouches good result start (get >>= next) := by
  unfold Vouches
  rw [leaves_bind, leaves_get]
  exact vouches

theorem modifyGet {change : σ → α × σ} (isGood : good (change start).2)
    (unchanged : Interning.terms (change start).2 = Interning.terms start)
    (isResult : result (change start).1 (change start).2) :
    Vouches good result start (modifyGet change : EStateM ε σ α) := by
  unfold Vouches
  rw [leaves_modifyGet, unchanged]
  exact ⟨isGood, .refl _, isResult⟩

end Vouches

variable {warrant : Warrant} {functions : Registry} {start : TermStore}

/-! ## Bindings -/

def Substitution.Warranted (warrant : Warrant) (terms : TermStore) (substitution : Substitution) :
    Prop :=
  ∀ (slot : Nat) (id : TermId), substitution.slots[slot]? = some (some id) → warrant.number terms id

namespace Substitution

variable {substitution : Substitution} {terms later : TermStore}

theorem Warranted.mono (warranted : substitution.Warranted warrant terms)
    (grown : later.Extends terms) : substitution.Warranted warrant later :=
  fun slot id bound => warrant.mono grown (warranted slot id bound)

theorem warranted_unbound (count : Nat) : (unbound count).Warranted warrant terms := by
  intro slot id bound
  simp [unbound, List.getElem?_replicate] at bound

theorem Warranted.bind (warranted : substitution.Warranted warrant terms) {id : TermId}
    (number : warrant.number terms id) (slot : Nat) :
    (substitution.bind slot id).Warranted warrant terms := by
  intro other id' bound
  simp only [Substitution.bind, List.getElem?_set] at bound
  split at bound
  · split at bound
    · obtain rfl : id = id' := by simpa using bound
      exact number
    · cases bound
  · exact warranted other id' bound

theorem slots_of_rollback {checkpoint slot : Nat} {id : TermId}
    (bound : (substitution.rollback checkpoint).slots[slot]? = some (some id)) :
    substitution.slots[slot]? = some (some id) := by
  unfold rollback at bound
  generalize substitution.trail.drop checkpoint = trail at bound
  generalize substitution.slots = slots at bound ⊢
  induction trail generalizing slots with
  | nil => exact bound
  | cons first trail ih =>
      have before := ih (slots.set first none) bound
      rw [List.getElem?_set] at before
      split at before
      · split at before <;> cases before
      · exact before

theorem Warranted.rollback (warranted : substitution.Warranted warrant terms) (checkpoint : Nat) :
    (substitution.rollback checkpoint).Warranted warrant terms :=
  fun slot id bound => warranted slot id (slots_of_rollback bound)

end Substitution

/-- Terms and slots are warranted, and there are only more terms than at the start. -/
structure Bindings.Warranted (warrant : Warrant) (start : TermStore) (bindings : Bindings) :
    Prop where
  terms : warrant.terms bindings.terms
  grown : bindings.terms.Extends start
  slots : bindings.substitution.Warranted warrant bindings.terms

namespace BindM

variable {bindings : Bindings}

theorem vouches_ofTermM {α : Type} {result : α → TermStore → Prop} {computation : TermM α}
    (warranted : bindings.Warranted warrant start) (interns : Interns computation)
    (vouches : Vouches warrant.terms result bindings.terms computation) :
    Vouches (Bindings.Warranted warrant start) (fun value later => result value later.terms)
      bindings (ofTermM computation) := by
  have grows : Leaves computation bindings.terms _ _ := interns bindings.terms
  unfold Vouches Leaves at vouches
  unfold Leaves at grows
  unfold Vouches Leaves ofTermM
  cases outcome : computation bindings.terms with
  | ok value later =>
      rw [outcome] at vouches grows
      obtain ⟨held, -, isResult⟩ := vouches
      exact ⟨⟨held, grows.trans warranted.grown, warranted.slots.mono grows⟩, grows, isResult⟩
  | error error later =>
      rw [outcome] at vouches grows
      exact ⟨vouches, grows.trans warranted.grown, warranted.slots.mono grows⟩

theorem vouches_slotValue (warranted : bindings.Warranted warrant start) (slot : Nat) :
    Vouches (Bindings.Warranted warrant start)
      (fun value later => ∀ id ∈ value, warrant.number later.terms id) bindings
      (slotValue slot) := by
  apply Vouches.get_bind
  dsimp only
  split
  · next value atSlot =>
      apply Vouches.pure warranted
      rintro id rfl
      exact warranted.slots slot id atSlot
  · exact .throw warranted

end BindM

/-! ## Planned terms -/

namespace PlanTerm

mutual

/-- The numbers of the constants in a planned term. -/
def constants : PlanTerm → List TermId
  | .slot _ => []
  | .const id => [id]
  | .ctor _ args | .call _ args => constantsList args

def constantsList : List PlanTerm → List TermId
  | [] => []
  | plan :: plans => constants plan ++ constantsList plans

end

theorem mem_constantsList {plans : List PlanTerm} {id : TermId} :
    id ∈ constantsList plans ↔ ∃ plan ∈ plans, id ∈ plan.constants := by
  induction plans with
  | nil => simp [constantsList]
  | cons plan plans ih => simp [constantsList, ih]

def Warranted (warrant : Warrant) (store : TermStore) (plans : List PlanTerm) : Prop :=
  ∀ id ∈ constantsList plans, warrant.number store id

theorem warranted_cons {store : TermStore} {plan : PlanTerm} {plans : List PlanTerm} :
    Warranted warrant store (plan :: plans) ↔
      (∀ id ∈ plan.constants, warrant.number store id) ∧ Warranted warrant store plans := by
  simp only [Warranted, constantsList, List.forall_mem_append]

theorem Warranted.subset {store : TermStore} {plans others : List PlanTerm}
    (warranted : Warranted warrant store plans) (subset : others ⊆ plans) :
    Warranted warrant store others := by
  intro id member
  obtain ⟨plan, inOthers, isConstant⟩ := mem_constantsList.mp member
  exact warranted id (mem_constantsList.mpr ⟨plan, subset inOthers, isConstant⟩)

theorem Warranted.mono {store later : TermStore} {plans : List PlanTerm}
    (warranted : Warranted warrant store plans) (grown : later.Extends store) :
    Warranted warrant later plans :=
  fun id member => warrant.mono grown (warranted id member)

mutual

/-- The constants of a planned term are warranted if the numbers of all values in the term are. -/
theorem Represents.warranted {names : List String} {store : TermStore} :
    {plan : PlanTerm} → {term : Term} → plan.Represents store names term →
      warrant.HoldsFor store term → ∀ id ∈ plan.constants, warrant.number store id
  | .slot _, _, _, _ => by simp [constants]
  | .const id, _, represents, holds => by
      obtain ⟨value, rfl, denotes⟩ := represents
      intro other member
      obtain rfl : other = id := by simpa [constants] using member
      exact holds value (Term.self_mem_subterms _) other denotes
  | .ctor _ _, _, represents, holds | .call _ _, _, represents, holds => by
      obtain ⟨terms, rfl, all⟩ := represents
      unfold constants
      refine RepresentsAll.warranted all fun term member part isPart => holds part ?_
      exact List.mem_cons_of_mem _ (Term.mem_subtermsList.mpr ⟨term, member, isPart⟩)

theorem RepresentsAll.warranted {names : List String} {store : TermStore} :
    {plans : List PlanTerm} → {terms : List Term} → RepresentsAll store names plans terms →
      (∀ term ∈ terms, warrant.HoldsFor store term) → Warranted warrant store plans
  | [], _, _, _ => by simp [Warranted, constantsList]
  | plan :: plans, _, all, hold => by
      obtain ⟨term, rest, rfl, first, others⟩ := all
      obtain ⟨here, there⟩ := List.forall_mem_cons.mp hold
      exact warranted_cons.mpr ⟨Represents.warranted first here, RepresentsAll.warranted others there⟩

end

end PlanTerm

/-- Evaluation keeps a warrant: the values of planned terms are warranted if they are covered, and so are
those of the arguments of facts. -/
structure Registry.Honours (functions : Registry) (warrant : Warrant) : Prop where
  eval : ∀ (plan : PlanTerm) {start : TermStore} {bindings : Bindings},
    bindings.Warranted warrant start → (∀ id ∈ plan.constants, warrant.number start id) →
      Vouches (Bindings.Warranted warrant start)
        (fun id later => warrant.covers plan → warrant.number later.terms id) bindings
        (plan.eval functions)
  normalize : warrant.coversFacts → ∀ (args : List Term) {store : TermStore}, warrant.terms store →
    Vouches warrant.terms (fun ids later => ∀ id ∈ ids, warrant.number later id) store
      (Term.normalizeList functions args)

namespace PlanTerm

/-- Evaluation of several terms comes up with warranted numbers if all terms are covered. -/
theorem evalList_vouches (honours : functions.Honours warrant) {plans : List PlanTerm}
    {bindings : Bindings} (warranted : bindings.Warranted warrant start)
    (constants : Warranted warrant start plans) :
    Vouches (Bindings.Warranted warrant start)
      (fun ids later => (∀ plan ∈ plans, warrant.covers plan) →
        ∀ id ∈ ids, warrant.number later.terms id)
      bindings (evalList functions plans) := by
  induction plans generalizing bindings with
  | nil =>
      unfold evalList
      exact .pure warranted (by simp)
  | cons plan plans ih =>
      obtain ⟨here, there⟩ := warranted_cons.mp constants
      unfold evalList
      apply (honours.eval plan warranted here).bind
      intro id middle warranted _ number
      apply (ih warranted there).bind
      intro ids later warranted grown numbers
      refine .pure warranted fun covered => ?_
      obtain ⟨coveredHere, coveredThere⟩ := List.forall_mem_cons.mp covered
      exact List.forall_mem_cons.mpr
        ⟨warrant.mono grown (number coveredHere), numbers coveredThere⟩

mutual

/-- Matching binds slots to the number that is matched or to parts of it. -/
theorem matchValue_vouches (honours : functions.Honours warrant) :
    (plan : PlanTerm) → {bindings : Bindings} → bindings.Warranted warrant start →
      (∀ id ∈ plan.constants, warrant.number start id) → {value : TermId} →
        warrant.number bindings.terms value →
          Vouches (Bindings.Warranted warrant start) (fun _ _ => True) bindings
            (plan.matchValue functions value)
  | .slot number, _, warranted, _, value, isNumber => by
      unfold matchValue
      apply (BindM.vouches_slotValue warranted number).bind
      intro present later warranted grown _
      cases present with
      | some present => exact .pure warranted trivial
      | none =>
          have bound := warranted.slots.bind (warrant.mono grown isNumber) number
          exact ⟨⟨warranted.terms, warranted.grown, bound⟩, .refl _, trivial⟩
  | .const id, _, warranted, _, _, _ => by
      unfold matchValue
      exact .pure warranted trivial
  | .ctor name args, bindings, warranted, constants, value, isNumber => by
      unfold matchValue
      unfold PlanTerm.constants at constants
      apply Vouches.get_bind
      split
      · next name' values resolved =>
          split
          · exact matchList_vouches honours args warranted constants
              (warrant.args isNumber resolved)
          · exact .pure warranted trivial
      · exact .pure warranted trivial
  | .call function args, _, warranted, constants, _, _ => by
      unfold matchValue
      apply (honours.eval (.call function args) warranted constants).bind
      exact fun id later warranted _ _ => .pure warranted trivial

theorem matchList_vouches (honours : functions.Honours warrant) :
    (plans : List PlanTerm) → {bindings : Bindings} → bindings.Warranted warrant start →
      Warranted warrant start plans → {values : List TermId} →
        (∀ value ∈ values, warrant.number bindings.terms value) →
          Vouches (Bindings.Warranted warrant start) (fun _ _ => True) bindings
            (matchList functions plans values)
  | [], _, warranted, _, _, _ => by
      unfold matchList
      exact .pure warranted trivial
  | _ :: _, _, warranted, _, [], _ => by
      unfold matchList
      exact .pure warranted trivial
  | plan :: plans, bindings, warranted, constants, value :: values, numbers => by
      obtain ⟨here, there⟩ := warranted_cons.mp constants
      obtain ⟨number, numbers⟩ := List.forall_mem_cons.mp numbers
      unfold matchList
      apply (matchValue_vouches honours plan warranted here number).bind
      intro success middle warranted grown _
      split
      · exact matchList_vouches honours plans warranted there fun id member =>
          warrant.mono grown (numbers id member)
      · exact .pure warranted trivial

end

end PlanTerm

theorem matchColumns_vouches (honours : functions.Honours warrant) (checkBound : Bool)
    (pattern : Pattern) {args : List PlanTerm} {tuple : Tuple} {bindings : Bindings}
    (warranted : bindings.Warranted warrant start)
    (constants : PlanTerm.Warranted warrant start args)
    (numbers : ∀ id ∈ tuple, warrant.number bindings.terms id) :
    Vouches (Bindings.Warranted warrant start) (fun _ _ => True) bindings
      (matchColumns functions checkBound args pattern tuple) := by
  induction args generalizing pattern tuple bindings with
  | nil =>
      unfold matchColumns
      exact .pure warranted trivial
  | cons arg args ih =>
      cases pattern with
      | nil =>
          unfold matchColumns
          exact .pure warranted trivial
      | cons binding pattern =>
          cases tuple with
          | nil =>
              unfold matchColumns
              exact .pure warranted trivial
          | cons id tuple =>
              obtain ⟨here, there⟩ := PlanTerm.warranted_cons.mp constants
              obtain ⟨number, numbers⟩ := List.forall_mem_cons.mp numbers
              unfold matchColumns
              extract_lets skip
              have first : Vouches (Bindings.Warranted warrant start) (fun _ _ => True) bindings
                  (if skip then pure true else arg.matchValue functions id) := by
                split
                · exact .pure warranted trivial
                · exact PlanTerm.matchValue_vouches honours arg warranted here number
              apply first.bind
              intro success middle warranted grown _
              split
              · exact ih pattern warranted there fun other member =>
                  warrant.mono grown (numbers other member)
              · exact .pure warranted trivial

namespace PlanTerm

theorem eval_slot_vouches {bindings : Bindings} (warranted : bindings.Warranted warrant start)
    (slot : Nat) :
    Vouches (Bindings.Warranted warrant start) (fun id later => warrant.number later.terms id)
      bindings ((PlanTerm.slot slot).eval functions) := by
  unfold eval
  apply (BindM.vouches_slotValue warranted slot).bind
  intro value later warranted _ numbers
  cases value with
  | some id => exact .pure warranted (numbers id rfl)
  | none => exact .throw warranted

theorem eval_const_vouches {bindings : Bindings} (warranted : bindings.Warranted warrant start)
    {id : TermId} (number : warrant.number start id) :
    Vouches (Bindings.Warranted warrant start) (fun id later => warrant.number later.terms id)
      bindings ((PlanTerm.const id).eval functions) := by
  unfold eval
  exact .pure warranted (warrant.mono warranted.grown number)

end PlanTerm

/-! ## Warrants that cover everything -/

/-- A warrant that covers everything: it is given where all terms are distinct and for numbers that stand
for values, unless the terms have run full, and interning keeps it. -/
structure Warrant.Universal (warrant : Warrant) : Prop where
  covers : ∀ plan, warrant.covers plan
  coversFacts : warrant.coversFacts
  distinct : ∀ {store : TermStore}, store.Distinct → warrant.terms store
  value : ∀ {store : TermStore} {id : TermId} {value : Value},
    (store.HasRoom → store.Denotes id value) → warrant.number store id
  intern : ∀ {store : TermStore} {term : GroundTerm}, warrant.terms store →
    (∀ arg ∈ term.args, warrant.number store arg) →
      warrant.terms (store.intern term).2 ∧ warrant.number (store.intern term).2 (store.intern term).1

def Registry.CallsHonour (functions : Registry) (warrant : Warrant) : Prop :=
  ∀ (name : String) {args : List TermId} {store : TermStore}, warrant.terms store →
    (∀ arg ∈ args, warrant.number store arg) →
      Leaves (functions.call name args) store
        (fun id later => warrant.terms later ∧ warrant.number later id)
        fun _ later => warrant.terms later

theorem Warrant.Universal.vouches_internTerm (universal : warrant.Universal) {store : TermStore}
    (held : warrant.terms store) (term : GroundTerm) (args : ∀ arg ∈ term.args, warrant.number store arg) :
    Vouches warrant.terms (fun id later => warrant.number later id) store (internTerm term) :=
  .of_leaves (universal.intern held args) (interns_internTerm term)

theorem Registry.CallsHonour.vouches_call (calls : functions.CallsHonour warrant) (name : String)
    {args : List TermId} {store : TermStore} (held : warrant.terms store)
    (numbers : ∀ arg ∈ args, warrant.number store arg) :
    Vouches warrant.terms (fun id later => warrant.number later id) store
      (functions.call name args) :=
  .of_leaves (calls name held numbers) (functions.interns_call name args)

namespace Term

mutual

theorem normalize_vouches (universal : warrant.Universal) (calls : functions.CallsHonour warrant) :
    (term : Term) → {store : TermStore} → warrant.terms store →
      Vouches warrant.terms (fun id later => warrant.number later id) store
        (term.normalize functions)
  | .var _, _, held => by
      unfold normalize
      exact .throw held
  | .bool _, _, held | .int _, _, held | .str _, _, held => by
      unfold normalize
      exact universal.vouches_internTerm held _ (by simp [GroundTerm.args])
  | .ctor name args, _, held => by
      unfold normalize
      apply (normalizeList_vouches universal calls args held).bind
      exact fun ids middle held _ numbers =>
        universal.vouches_internTerm held (.ctor name ids) numbers
  | .call function args, _, held => by
      unfold normalize
      apply (normalizeList_vouches universal calls args held).bind
      exact fun ids middle held _ numbers => calls.vouches_call function held numbers

theorem normalizeList_vouches (universal : warrant.Universal)
    (calls : functions.CallsHonour warrant) :
    (args : List Term) → {store : TermStore} → warrant.terms store →
      Vouches warrant.terms (fun ids later => ∀ id ∈ ids, warrant.number later id) store
        (normalizeList functions args)
  | [], _, held => by
      unfold normalizeList
      exact .pure held (by simp)
  | term :: args, _, held => by
      unfold normalizeList
      apply (normalize_vouches universal calls term held).bind
      intro id middle held _ number
      apply (normalizeList_vouches universal calls args held).bind
      intro ids later held grown numbers
      exact .pure held (List.forall_mem_cons.mpr ⟨warrant.mono grown number, numbers⟩)

end

end Term

namespace PlanTerm

mutual

theorem eval_vouches (universal : warrant.Universal) (calls : functions.CallsHonour warrant) :
    (plan : PlanTerm) → {bindings : Bindings} → bindings.Warranted warrant start →
      (∀ id ∈ plan.constants, warrant.number start id) →
        Vouches (Bindings.Warranted warrant start)
          (fun id later => warrant.number later.terms id) bindings (plan.eval functions)
  | .slot number, _, warranted, _ => eval_slot_vouches warranted number
  | .const id, _, warranted, constants =>
      eval_const_vouches warranted (constants id (by simp [PlanTerm.constants]))
  | .ctor name args, _, warranted, constants => by
      unfold eval
      unfold PlanTerm.constants at constants
      apply (evalArgs_vouches universal calls args warranted constants).bind
      intro ids middle warranted _ numbers
      have interned := universal.vouches_internTerm warranted.terms (.ctor name ids) numbers
      exact BindM.vouches_ofTermM warranted (interns_internTerm _) interned
  | .call function args, _, warranted, constants => by
      unfold eval
      unfold PlanTerm.constants at constants
      apply (evalArgs_vouches universal calls args warranted constants).bind
      intro ids middle warranted _ numbers
      have called := calls.vouches_call function warranted.terms numbers
      exact BindM.vouches_ofTermM warranted (functions.interns_call _ _) called

theorem evalArgs_vouches (universal : warrant.Universal) (calls : functions.CallsHonour warrant) :
    (plans : List PlanTerm) → {bindings : Bindings} → bindings.Warranted warrant start →
      Warranted warrant start plans →
        Vouches (Bindings.Warranted warrant start)
          (fun ids later => ∀ id ∈ ids, warrant.number later.terms id)
          bindings (evalList functions plans)
  | [], _, warranted, _ => by
      unfold evalList
      exact .pure warranted (by simp)
  | plan :: plans, bindings, warranted, constants => by
      obtain ⟨here, there⟩ := warranted_cons.mp constants
      unfold evalList
      apply (eval_vouches universal calls plan warranted here).bind
      intro id middle warranted _ number
      apply (evalArgs_vouches universal calls plans warranted there).bind
      intro ids later warranted grown numbers
      exact .pure warranted (List.forall_mem_cons.mpr ⟨warrant.mono grown number, numbers⟩)

end

end PlanTerm

theorem Warrant.Universal.holdsFor (universal : warrant.Universal) (store : TermStore) (term : Term) :
    warrant.HoldsFor store term :=
  fun _ _ _ denotes => universal.value denotes

/-- What interning and calls keep, evaluation keeps. -/
theorem Warrant.Universal.honours (universal : warrant.Universal)
    (calls : functions.CallsHonour warrant) : functions.Honours warrant where
  eval plan _ _ warranted constants :=
    (PlanTerm.eval_vouches universal calls plan warranted constants).mono fun _ _ number _ => number
  normalize _ args _ held := Term.normalizeList_vouches universal calls args held

/-! ## Two warrants -/

/-- Whatever is registered returns numbers that denote values and interns every term once. -/
def Registry.Grounded (functions : Registry) : Prop :=
  ∀ name registered, functions.find? name = some registered → registered.Answers fun _ _ => True

theorem Registry.Computes.grounded {meaning : Interpretation}
    (computes : functions.Computes meaning) : functions.Grounded := by
  intro name registered found
  have answers := (computes name registered found).answers
  cases registered with
  | native function =>
      intro store args values distinct denotes
      obtain ⟨distinctAfter, result⟩ := answers store args values distinct denotes
      refine ⟨distinctAfter, fun id returned room => ?_⟩
      obtain ⟨value, -, denotesValue⟩ := result id returned room
      exact ⟨value, trivial, denotesValue⟩
  | solverCheck solver negate =>
      obtain ⟨verdicts, solves, -⟩ := answers
      exact ⟨verdicts, solves, fun _ _ _ _ _ => trivial⟩

namespace Warrant

def nothing : Warrant where
  terms _ := True
  number _ _ := True
  covers _ := True
  coversFacts := True
  mono _ _ := trivial
  args _ _ _ _ := trivial

theorem universal_nothing : nothing.Universal where
  covers _ := trivial
  coversFacts := trivial
  distinct _ := trivial
  value _ := trivial
  intern _ _ := ⟨trivial, trivial⟩

theorem honours_nothing (functions : Registry) : functions.Honours nothing := by
  refine universal_nothing.honours fun name args store _ _ => ?_
  unfold Leaves
  split
  · exact ⟨trivial, trivial⟩
  · trivial

/-- Unless the terms have run full, each is stored once and every number stands for a value. -/
def values : Warrant where
  terms store := store.HasRoom → store.Distinct
  number store id := store.HasRoom → ∃ value, store.Denotes id value
  covers _ := True
  coversFacts := True
  mono grown stands room := by
    obtain ⟨value, denotes⟩ := stands (grown.hasRoom room)
    exact ⟨value, denotes.mono grown⟩
  args stands resolved arg member room := by
    obtain ⟨value, denotes⟩ := stands room
    obtain ⟨part, denotesPart, -⟩ := denotes.exists_part resolved member
    exact ⟨part, denotesPart⟩

theorem universal_values : values.Universal where
  covers _ := trivial
  coversFacts := trivial
  distinct distinct _ := distinct
  value denotes room := ⟨_, denotes room⟩
  intern {store term} distinct stand := by
    have grown := TermStore.extends_intern store term
    refine ⟨fun room => (distinct (grown.hasRoom room)).intern term, fun room => ?_⟩
    cases term with
    | bool bit => exact ⟨.bool bit, TermStore.resolve_intern room⟩
    | int number => exact ⟨.int number, TermStore.resolve_intern room⟩
    | str text => exact ⟨.str text, TermStore.resolve_intern room⟩
    | ctor name args =>
        obtain ⟨values, denotes⟩ :=
          TermStore.exists_denotesAll fun id member => stand id member (grown.hasRoom room)
        exact ⟨.ctor name values, TermStore.denotes_intern_ctor denotes room⟩

/-- Functions whose results denote values keep the promise that all numbers do. -/
theorem honours_values {functions : Registry} (grounded : functions.Grounded) :
    functions.Honours values := by
  refine universal_values.honours fun name args store distinct stand => ?_
  have grown : Leaves (functions.call name args) store _ _ := functions.interns_call name args store
  by_cases room : store.HasRoom
  · obtain ⟨argValues, denotes⟩ :=
      TermStore.exists_denotesAll fun id member => stand id member room
    have answered := Registry.call_answers (grounded name) (distinct room) denotes
    apply Leaves.imp_done answered
    intro id later yields
    refine ⟨fun laterRoom => (yields laterRoom).1, fun laterRoom => ?_⟩
    obtain ⟨-, value, -, denotesValue⟩ := yields laterRoom
    exact ⟨value, denotesValue⟩
  · refine grown.mono (fun id later extended => ?_) fun _ later extended => ?_
    · exact ⟨fun laterRoom => absurd (extended.hasRoom laterRoom) room,
        fun laterRoom => absurd (extended.hasRoom laterRoom) room⟩
    · exact fun laterRoom => absurd (extended.hasRoom laterRoom) room

end Warrant

end Datalog
