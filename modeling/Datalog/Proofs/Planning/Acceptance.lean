import Datalog.Proofs.Planning.Order
import Datalog.Proofs.Stratification
import Mathlib.Data.List.Sort
import Mathlib.Data.String.Basic

/-!
# Which rules can be ordered

Choosing greedily never blocks an order.  Whichever literal is placed first, the others keep an
evaluable order, because a literal that can be evaluated stays evaluable when more variables have
values.  So every heuristic accepts the same rules and refuses the others with the same error.
-/

namespace Datalog

namespace JoinOrder

variable {optimization : Optimization} {count : String → Nat} {bound more : List String}
  {body target : List BodyLiteral}

theorem isBound_mono (grown : bound ⊆ more) {term : Term} (known : isBound bound term = true) :
    isBound more term = true := by
  apply List.all_eq_true.mpr
  intro name member
  simpa using grown (mem_of_isBound known member)

theorem isMatchable_mono (grown : bound ⊆ more) {term : Term}
    (matchable : isMatchable bound term = true) : isMatchable more term = true := by
  apply List.all_eq_true.mpr
  intro name member
  simpa using grown (mem_of_isMatchable matchable member)

/-- A literal stays evaluable when more variables have values and the variables are counted anew, as
long as every variable that is no longer a singleton has a value. -/
theorem isEvaluable_recount {count' : String → Nat} (grown : bound ⊆ more)
    (single : ∀ name, count name = 1 → count' name = 1 ∨ name ∈ more) {literal : Literal}
    (evaluable : isEvaluable count bound literal = true) :
    isEvaluable count' more literal = true := by
  have isBound' : ∀ term, isBound bound term = true → isBound more term = true :=
    fun _ => isBound_mono grown
  have isMatchable : ∀ term, isMatchable bound term = true → isMatchable more term = true :=
    fun _ => isMatchable_mono grown
  cases literal with
  | unification lhs rhs negated =>
      cases negated with
      | true =>
          simp only [isEvaluable, Bool.and_eq_true] at evaluable ⊢
          exact ⟨isBound' lhs evaluable.1, isBound' rhs evaluable.2⟩
      | false =>
          simp only [isEvaluable, Bool.or_eq_true, Bool.and_eq_true] at evaluable ⊢
          apply evaluable.imp
          · exact fun sides => ⟨isBound' lhs sides.1, isMatchable rhs sides.2⟩
          · exact fun sides => ⟨isBound' rhs sides.1, isMatchable lhs sides.2⟩
  | predicate atom =>
      cases negated : atom.negated with
      | true =>
          simp only [isEvaluable, negated, if_true, List.all_eq_true, Bool.or_eq_true] at evaluable ⊢
          intro arg member
          rcases evaluable arg member with known | singleton
          · exact .inl (isBound' arg known)
          · cases arg with
            | var name =>
                have once : count name = 1 := by simpa [isSingleton, Term.asVar] using singleton
                refine (single name once).symm.imp (fun known => ?_) fun once' => ?_
                · simpa [isBound, Term.vars] using known
                · simpa [isSingleton, Term.asVar] using once'
            | bool | int | str | ctor | call => simp [isSingleton, Term.asVar] at singleton
      | false =>
          simp only [isEvaluable, negated, Bool.false_eq_true, if_false, List.all_eq_true]
            at evaluable ⊢
          exact fun arg member => isMatchable arg (evaluable arg member)

theorem isEvaluable_mono (grown : bound ⊆ more) {literal : Literal}
    (evaluable : isEvaluable count bound literal = true) :
    isEvaluable count more literal = true :=
  isEvaluable_recount grown (fun _ => .inl) evaluable

theorem EvaluableFrom.recount {count' : String → Nat} (evaluable : EvaluableFrom count bound body)
    (grown : bound ⊆ more) (single : ∀ name, count name = 1 → count' name = 1 ∨ name ∈ more) :
    EvaluableFrom count' more body := by
  induction body generalizing bound more with
  | nil => trivial
  | cons literal body ih =>
      have grownBehind : bound ++ literal.vars ⊆ more ++ literal.vars :=
        List.append_subset.mpr ⟨fun _ member => List.mem_append_left _ (grown member),
          List.subset_append_right _ _⟩
      exact ⟨isEvaluable_recount grown single evaluable.1, ih evaluable.2 grownBehind fun name once =>
        (single name once).imp_right (List.mem_append_left _)⟩

theorem EvaluableFrom.mono (evaluable : EvaluableFrom count bound body) (grown : bound ⊆ more) :
    EvaluableFrom count more body :=
  evaluable.recount grown fun _ => .inl

/-- The other literals keep their evaluable order when one of them is placed before all. -/
theorem EvaluableFrom.erase (evaluable : EvaluableFrom count bound body) (literal : BodyLiteral) :
    EvaluableFrom count (bound ++ literal.vars) (body.erase literal) := by
  induction body generalizing bound with
  | nil => trivial
  | cons first body ih =>
      by_cases same : first = literal
      · subst first
        rw [List.erase_cons_head]
        exact evaluable.2
      · rw [List.erase_cons_tail (by simpa using same)]
        have exchanged : (bound ++ first.vars) ++ literal.vars ⊆
            (bound ++ literal.vars) ++ first.vars := by
          intro name
          simp only [List.mem_append]
          tauto
        exact ⟨isEvaluable_mono (List.subset_append_left _ _) evaluable.1,
          (ih evaluable.2).mono exchanged⟩

theorem isEvaluable_eq_false_of_pick?_eq_none (none : pick? optimization count bound body = none) :
    ∀ literal ∈ body, isEvaluable count bound literal.literal = false := by
  induction body with
  | nil => simp
  | cons first body ih =>
      unfold pick? at none
      split at none
      · next noneBehind =>
          split at none
          · cases none
          · next notFirst =>
              intro literal member
              rcases List.mem_cons.mp member with rfl | behind
              · simpa using notFirst
              · exact ih noneBehind literal behind
      · split at none <;> cases none

/-- If there is an evaluable order at all, one is found. -/
theorem EvaluableFrom.exists_arrangeFrom {places : Nat}
    (evaluable : EvaluableFrom count bound target) (permuted : target.Perm body)
    (enough : body.length = places) :
    ∃ arranged, arrangeFrom optimization count places bound body = some arranged := by
  induction places generalizing bound body target with
  | zero => exact ⟨[], rfl⟩
  | succ places ih =>
      cases target with
      | nil =>
          have := permuted.length_eq
          simp [enough] at this
      | cons first rest =>
          cases picked : pick? optimization count bound body with
          | none =>
              have firstMember : first ∈ body := permuted.mem_iff.mp List.mem_cons_self
              have := isEvaluable_eq_false_of_pick?_eq_none picked first firstMember
              simp [evaluable.1] at this
          | some choice =>
              obtain ⟨literal, others⟩ := choice
              have chosen := (pick?_eq_some picked).1
              have othersPermuted : ((first :: rest).erase literal).Perm others := by
                have := (permuted.trans chosen.symm).erase literal
                rwa [List.erase_cons_head] at this
              have othersLength : others.length = places := by
                have := chosen.length_eq
                simp only [List.length_cons] at this
                omega
              obtain ⟨arranged, arrangedEq⟩ :=
                ih (evaluable.erase literal) othersPermuted othersLength
              exact ⟨literal :: arranged, by simp [arrangeFrom, picked, arrangedEq]⟩

end JoinOrder

namespace DeltaRule

/-- Some order of the body puts every literal after literals that give values to the variables that
it needs. -/
def Orderable (rule : DeltaRule) : Prop :=
  ∃ body, body.Perm rule.body ∧ JoinOrder.EvaluableFrom rule.varCount [] body

/-- Names are, in increasing order, the variables of the head that the body does not have. -/
structure LeavesUnbound (rule : DeltaRule) (names : List String) : Prop where
  increasing : names.Pairwise (· < ·)
  mem_iff : ∀ name, name ∈ names ↔
    name ∈ rule.head.vars ∧ name ∉ rule.body.flatMap BodyLiteral.vars

/-- The answer that is due when a rule is ordered. -/
structure Decides (rule : DeltaRule) (answer : Except SetupError DeltaRule) : Prop where
  ok_iff : (∃ ordered, answer = .ok ordered) ↔
    rule.Orderable ∧ ∀ name ∈ rule.head.vars, name ∈ rule.body.flatMap BodyLiteral.vars
  of_ok : ∀ ordered, answer = .ok ordered → ordered.head = rule.head ∧
    ordered.body.Perm rule.body ∧ JoinOrder.EvaluableFrom rule.varCount [] ordered.body
  noOrdering : ¬ rule.Orderable → answer = .error (.noEvaluableOrdering rule)
  unbound : rule.Orderable →
    (∃ name ∈ rule.head.vars, name ∉ rule.body.flatMap BodyLiteral.vars) →
      ∃ names, rule.LeavesUnbound names ∧ answer = .error (.unboundHeadVariables names rule)

theorem leavesUnbound_unboundHeadVariables (rule : DeltaRule) :
    rule.LeavesUnbound rule.unboundHeadVariables := by
  constructor
  · have sorted : rule.unboundHeadVariables.Pairwise fun left right => !decide (right < left) := by
      apply List.pairwise_mergeSort
      · intro first second third
        simp only [Bool.not_eq_true', decide_eq_false_iff_not, not_lt]
        exact le_trans
      · intro first second
        simp only [Bool.or_eq_true, Bool.not_eq_true', decide_eq_false_iff_not, not_lt]
        exact le_total first second
    have distinct : rule.unboundHeadVariables.Nodup :=
      (List.mergeSort_perm _ _).nodup_iff.mpr ((nodup_eraseDups _).filter _)
    apply (sorted.and distinct).imp
    rintro left right ⟨notGreater, different⟩
    simp only [Bool.not_eq_true', decide_eq_false_iff_not, not_lt] at notGreater
    exact lt_of_le_of_ne notGreater different
  · intro name
    unfold unboundHeadVariables
    rw [(List.mergeSort_perm _ _).mem_iff, List.mem_filter, List.mem_eraseDups]
    simp

theorem Orderable.exists_arrange {rule : DeltaRule} (orderable : rule.Orderable)
    (optimization : Optimization) :
    ∃ arranged, JoinOrder.arrange optimization rule.varCount rule.body = some arranged := by
  obtain ⟨body, permuted, evaluable⟩ := orderable
  exact evaluable.exists_arrangeFrom permuted rfl

theorem decides_ordered (rule : DeltaRule) (optimization : Optimization) :
    rule.Decides (rule.ordered optimization) := by
  have leaves := leavesUnbound_unboundHeadVariables rule
  unfold DeltaRule.ordered
  cases arranged : JoinOrder.arrange optimization rule.varCount rule.body with
  | none =>
      have notOrderable : ¬ rule.Orderable := by
        intro orderable
        obtain ⟨body, found⟩ := orderable.exists_arrange optimization
        simp [arranged] at found
      constructor
      · simp [notOrderable]
      · simp
      · exact fun _ => rfl
      · exact fun orderable => absurd orderable notOrderable
  | some body =>
      obtain ⟨permuted, evaluable⟩ := JoinOrder.arrangeFrom_eq_some rfl arranged
      have orderable : rule.Orderable := ⟨body, permuted, evaluable⟩
      cases missing : rule.unboundHeadVariables with
      | nil =>
          have bound : ∀ name ∈ rule.head.vars, name ∈ rule.body.flatMap BodyLiteral.vars := by
            intro name inHead
            by_contra absent
            have listed := (leaves.mem_iff name).mpr ⟨inHead, absent⟩
            simp [missing] at listed
          constructor
          · exact ⟨fun _ => ⟨orderable, bound⟩, fun _ => ⟨_, rfl⟩⟩
          · rintro ordered ⟨⟩
            exact ⟨rfl, permuted, evaluable⟩
          · exact fun notOrderable => absurd orderable notOrderable
          · rintro - ⟨name, inHead, absent⟩
            exact absurd (bound name inHead) absent
      | cons name names =>
          rw [missing] at leaves
          obtain ⟨inHead, absent⟩ := (leaves.mem_iff name).mp List.mem_cons_self
          constructor
          · constructor
            · rintro ⟨ordered, ⟨⟩⟩
            · exact fun accepted => absurd (accepted.2 name inHead) absent
          · rintro ordered ⟨⟩
          · exact fun notOrderable => absurd orderable notOrderable
          · exact fun _ _ => ⟨name :: names, leaves, rfl⟩

theorem LeavesUnbound.unique {rule : DeltaRule} {names names' : List String}
    (leaves : rule.LeavesUnbound names) (leaves' : rule.LeavesUnbound names') : names = names' := by
  apply List.Pairwise.eq_of_mem_iff leaves.increasing leaves'.increasing
  intro name
  rw [leaves.mem_iff, leaves'.mem_iff]

/-- The error that is due does not depend on the order that would be chosen. -/
theorem Decides.eq_error {rule : DeltaRule} {answer other : Except SetupError DeltaRule}
    (decides : rule.Decides answer) (decides' : rule.Decides other) {error : SetupError}
    (refused : answer = .error error) : other = .error error := by
  by_cases orderable : rule.Orderable
  · have unbound : ∃ name ∈ rule.head.vars, name ∉ rule.body.flatMap BodyLiteral.vars := by
      by_contra bound
      push Not at bound
      obtain ⟨ordered, accepted⟩ := decides.ok_iff.mpr ⟨orderable, bound⟩
      simp [refused] at accepted
    obtain ⟨names, leaves, answerEq⟩ := decides.unbound orderable unbound
    obtain ⟨names', leaves', otherEq⟩ := decides'.unbound orderable unbound
    rw [otherEq, ← leaves.unique leaves', ← answerEq, refused]
  · rw [decides'.noOrdering orderable, ← refused, decides.noOrdering orderable]

/-- A rule is accepted if and only if some order of its body is evaluable and the body gives a value to
every variable of the head, whatever the heuristic is; what is refused is refused alike. -/
theorem ordered_decides (rule : DeltaRule) :
    (∀ optimization, rule.Decides (rule.ordered optimization)) ∧
      ∀ first second : Optimization,
        ((∃ ordered, rule.ordered first = .ok ordered) ↔
          ∃ ordered, rule.ordered second = .ok ordered) ∧
        ∀ error, rule.ordered first = .error error ↔ rule.ordered second = .error error := by
  have decides := decides_ordered rule
  refine ⟨decides, fun first second => ⟨?_, fun error => ⟨?_, ?_⟩⟩⟩
  · rw [(decides first).ok_iff, (decides second).ok_iff]
  · exact (decides first).eq_error (decides second)
  · exact (decides second).eq_error (decides first)

end DeltaRule

end Datalog
