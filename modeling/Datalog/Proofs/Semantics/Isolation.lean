import Datalog.Proofs.Semantics.Variants

/-!
# Isolated calls

In an eager evaluation the arguments of a delta atom that contain calls are replaced by numbered
variables, and equations give the variables their values.  If the rule does not use the numbered
variables itself, it derives what it derived before: an assignment that satisfies the equations makes
the new arguments equal to the old ones, and every assignment can be adapted to satisfy them.
-/

namespace Datalog

variable {meaning : Interpretation}

theorem Literal.holds_count_congr {positive negative : Model} {count count' : String → Nat}
    {assignment : Assignment} {literal : Literal}
    (sameCount : ∀ name ∈ literal.vars, count name = count' name) :
    literal.Holds meaning positive negative count assignment ↔
      literal.Holds meaning positive negative count' assignment := by
  have transfer : ∀ {count count' : String → Nat} {atom : Atom},
      (∀ name ∈ atom.vars, count name = count' name) →
        (∃ other, assignment.AgreesUpTo count other ∧ atom.HoldsIn meaning negative other) →
          ∃ other, assignment.AgreesUpTo count' other ∧ atom.HoldsIn meaning negative other := by
    rintro count count' atom sameCount ⟨other, agreesUpTo, holds⟩
    refine ⟨fun name => if name ∈ atom.vars then other name else assignment name, ?_, ?_⟩
    · intro name often
      by_cases occurs : name ∈ atom.vars
      · simp [occurs, agreesUpTo name (by rwa [sameCount name occurs])]
      · simp [occurs]
    · refine (Atom.holdsIn_congr fun name occurs => ?_).mp holds
      simp [occurs]
  match literal, sameCount with
  | .unification _ _ true, _ | .unification _ _ false, _ => simp only [Literal.Holds]
  | .predicate atom, sameCount =>
      simp only [Literal.Holds]
      split
      · exact not_congr
          ⟨transfer sameCount, transfer fun name member => (sameCount name member).symm⟩
      · exact Iff.rfl

theorem toString_injective : (toString : Nat → String).Injective := by
  intro first second same
  rw [Nat.toString_eq_ofList_toDigits, Nat.toString_eq_ofList_toDigits, String.ofList_inj] at same
  rw [← Nat.ofDigitChars_ten_toDigits (n := first), same, Nat.ofDigitChars_ten_toDigits]

namespace DeltaRule

def isolatedName (index : Nat) : String :=
  "$d" ++ toString index

theorem isolatedName_injective {first second : Nat}
    (same : isolatedName first = isolatedName second) : first = second :=
  toString_injective ((String.append_right_inj "$d").mp same)

/-- Some names are not those of the first isolated calls. -/
def AvoidsBelow (bound : Nat) (names : List String) : Prop :=
  ∀ index < bound, isolatedName index ∉ names

theorem AvoidsBelow.mono {bound : Nat} {names fewer : List String} (avoids : AvoidsBelow bound names)
    (included : ∀ name ∈ fewer, name ∈ names) : AvoidsBelow bound fewer :=
  fun index below member => avoids index below (included _ member)

/-- Some names are not those of isolated calls. -/
def AvoidsIsolated (names : List String) : Prop :=
  ∀ index, isolatedName index ∉ names

theorem AvoidsIsolated.below {names : List String} (avoids : AvoidsIsolated names) (bound : Nat) :
    AvoidsBelow bound names :=
  fun index _ => avoids index

/-- Names that do not start as those of isolated calls do. -/
theorem avoidsIsolated_of_head {names : List String}
    (plain : ∀ name ∈ names, name.toList.head? ≠ some '$') : AvoidsIsolated names := by
  intro index member
  exact plain _ member (by simp [isolatedName, String.toList_append])

/-- An assignment with the numbered variables changed. -/
noncomputable def refilled (assignment : Assignment) (fills : Nat → Value) : Assignment :=
  open Classical in
  fun name => if isolated : ∃ index, name = isolatedName index then fills isolated.choose
    else assignment name

theorem refilled_isolatedName (assignment : Assignment) (fills : Nat → Value) (index : Nat) :
    refilled assignment fills (isolatedName index) = fills index := by
  have isolated : ∃ other, isolatedName index = isolatedName other := ⟨index, rfl⟩
  rw [refilled, dif_pos isolated, isolatedName_injective isolated.choose_spec.symm]

/-- From a number on, the numbered variables stand for what they stood for. -/
def KeepsFrom (bound : Nat) (assignment : Assignment) (fills : Nat → Value) : Prop :=
  ∀ index, bound ≤ index → fills index = assignment (isolatedName index)

theorem refilled_of_avoids {bound : Nat} {names : List String} {assignment : Assignment}
    {fills : Nat → Value} (avoids : AvoidsBelow bound names)
    (keeps : KeepsFrom bound assignment fills) {name : String} (member : name ∈ names) :
    refilled assignment fills name = assignment name := by
  by_cases isolated : ∃ index, name = isolatedName index
  · obtain ⟨index, rfl⟩ := isolated
    rw [refilled_isolatedName]
    exact keeps index (Nat.le_of_not_lt fun below => avoids index below member)
  · rw [refilled, dif_neg isolated]

/-! ## Arguments -/

def isolatedEquation (index : Nat) (arg : Term) : BodyLiteral where
  literal := .unification (isolatedVar index) arg false

theorem isolateArgs_cons_call (next : Nat) {arg : Term} (args : List Term)
    (call : arg.containsCall = true) :
    isolateArgs next (arg :: args) =
      (isolatedVar next :: (isolateArgs (next + 1) args).1,
        isolatedEquation next arg :: (isolateArgs (next + 1) args).2.1,
          (isolateArgs (next + 1) args).2.2) := by
  rw [isolateArgs, if_pos call]
  rfl

theorem isolateArgs_cons_other (next : Nat) {arg : Term} (args : List Term)
    (noCall : ¬ arg.containsCall = true) :
    isolateArgs next (arg :: args) =
      (arg :: (isolateArgs next args).1, (isolateArgs next args).2.1,
        (isolateArgs next args).2.2) := by
  rw [isolateArgs, if_neg noCall]

theorem eq_isolatedEquation_of_mem {literal : BodyLiteral} {next : Nat} {args : List Term}
    (member : literal ∈ (isolateArgs next args).2.1) :
    ∃ index arg, literal = isolatedEquation index arg := by
  induction args generalizing next with
  | nil => simp [isolateArgs] at member
  | cons arg args ih =>
      by_cases call : arg.containsCall = true
      · rw [isolateArgs_cons_call next args call] at member
        rcases List.mem_cons.mp member with rfl | member
        · exact ⟨next, arg, rfl⟩
        · exact ih member
      · rw [isolateArgs_cons_other next args call] at member
        exact ih member

/-- An equation holds if the variable stands for the value of the argument. -/
theorem holds_isolatedEquation {assignment : Assignment} {positive : Bool → Model}
    {negative : Model} {count : String → Nat} {index : Nat} {arg : Term} :
    (isolatedEquation index arg).Holds meaning positive negative count assignment ↔
      arg.eval meaning assignment = some (assignment (isolatedName index)) := by
  change (∃ value, some (assignment (isolatedName index)) = some value ∧
    arg.eval meaning assignment = some value) ↔ _
  simp

/-- The equations of isolated arguments make the new arguments equal to the old ones. -/
theorem evalList_isolateArgs {assignment : Assignment} {positive : Bool → Model}
    {negative : Model} {count : String → Nat} (next : Nat) (args : List Term)
    (holds : ∀ equation ∈ (isolateArgs next args).2.1,
      equation.Holds meaning positive negative count assignment) :
    Term.evalList meaning assignment (isolateArgs next args).1 =
      Term.evalList meaning assignment args := by
  induction args generalizing next with
  | nil => rfl
  | cons arg args ih =>
      by_cases call : arg.containsCall = true
      · rw [isolateArgs_cons_call next args call] at holds ⊢
        obtain ⟨first, others⟩ := List.forall_mem_cons.mp holds
        have variableEq : (isolatedVar next).eval meaning assignment =
            some (assignment (isolatedName next)) := rfl
        simp only [Term.evalList, variableEq, holds_isolatedEquation.mp first, ih (next + 1) others]
      · rw [isolateArgs_cons_other next args call] at holds ⊢
        simp only [Term.evalList, ih next holds]

theorem isolateArgs_next (next : Nat) (args : List Term) :
    (isolateArgs next args).2.2 = next + args.countP Term.containsCall := by
  induction args generalizing next with
  | nil => rfl
  | cons arg args ih =>
      by_cases call : arg.containsCall = true
      · rw [isolateArgs_cons_call next args call, ih, List.countP_cons_of_pos call]
        omega
      · rw [isolateArgs_cons_other next args call, ih, List.countP_cons_of_neg call]

/-- The numbered variables can be filled so that the equations hold. -/
theorem exists_fills_args {bound : Nat} {assignment : Assignment} (positive : Bool → Model)
    (negative : Model) (count : String → Nat) {args : List Term}
    (avoids : AvoidsBelow bound (Term.varsList args)) {values : List Value}
    (evaluated : Term.evalList meaning assignment args = some values) (next : Nat)
    (within : (isolateArgs next args).2.2 ≤ bound) :
    ∃ fills : Nat → Value, ∀ fills' : Nat → Value, KeepsFrom bound assignment fills' →
      (∀ index, next ≤ index → index < (isolateArgs next args).2.2 →
        fills' index = fills index) →
        ∀ equation ∈ (isolateArgs next args).2.1,
          equation.Holds meaning positive negative count (refilled assignment fills') := by
  induction args generalizing next values with
  | nil => exact ⟨fun _ => default, by simp [isolateArgs]⟩
  | cons arg args ih =>
      obtain ⟨value, others, argEq, othersEq, rfl⟩ := Term.evalList_cons_eq_some.mp evaluated
      have avoidsArgs : AvoidsBelow bound (Term.varsList args) :=
        avoids.mono fun name member => by simp [Term.varsList, member]
      by_cases call : arg.containsCall = true
      · rw [isolateArgs_cons_call next args call] at within ⊢
        obtain ⟨fills, fillsHold⟩ := ih avoidsArgs othersEq (next + 1) within
        refine ⟨fun index => if index = next then value else fills index, ?_⟩
        intro fills' keeps agree equation member
        rcases List.mem_cons.mp member with rfl | member
        · have atNext : fills' next = value := by
            have := agree next (Nat.le_refl _) (by simp only [isolateArgs_next]; omega)
            simpa using this
          rw [holds_isolatedEquation, refilled_isolatedName, atNext, ← argEq]
          refine Term.eval_congr arg fun name occurs => ?_
          exact refilled_of_avoids avoids keeps (by simp [Term.varsList, occurs])
        · refine fillsHold fills' keeps (fun index above below => ?_) equation member
          have := agree index (by omega) below
          simpa [show index ≠ next by omega] using this
      · rw [isolateArgs_cons_other next args call] at within ⊢
        exact ih avoidsArgs othersEq next within

/-- Isolating arguments moves the occurrences of variables but keeps their number. -/
theorem count_isolateArgs {bound : Nat} {name : String}
    (notIsolated : ∀ index < bound, name ≠ isolatedName index) (next : Nat) (args : List Term)
    (within : (isolateArgs next args).2.2 ≤ bound) :
    (Term.varsList (isolateArgs next args).1).count name +
        ((isolateArgs next args).2.1.flatMap BodyLiteral.vars).count name =
      (Term.varsList args).count name := by
  induction args generalizing next with
  | nil => simp [isolateArgs, Term.varsList]
  | cons arg args ih =>
      by_cases call : arg.containsCall = true
      · rw [isolateArgs_cons_call next args call] at within ⊢
        have inBounds : next < bound := by
          rw [isolateArgs_next] at within
          omega
        have none : (isolatedVar next).vars.count name = 0 := by
          rw [List.count_eq_zero]
          exact fun member => notIsolated next inBounds (List.mem_singleton.mp member)
        have equationVars : (isolatedEquation next arg).vars =
          (isolatedVar next).vars ++ (arg.vars ++ []) := rfl
        have := ih (next + 1) within
        simp only [Term.varsList, List.flatMap_cons, equationVars, List.count_append, none,
          List.append_nil]
        omega
      · rw [isolateArgs_cons_other next args call] at within ⊢
        have := ih next within
        simp only [Term.varsList, List.count_append]
        omega

/-! ## Bodies -/

/-- The marked atoms of a body are positive. -/
def MarksPositive (body : List BodyLiteral) : Prop :=
  ∀ atom, { literal := .predicate atom, delta := true } ∈ body → atom.negated = false

theorem isolateBody_cons_marked (next : Nat) (atom : Atom) (body : List BodyLiteral) :
    isolateBody next ({ literal := .predicate atom, delta := true } :: body) =
      (isolateArgs next atom.args).2.1 ++
        { literal := .predicate { atom with args := (isolateArgs next atom.args).1 },
          delta := true } ::
        isolateBody (isolateArgs next atom.args).2.2 body := by
  rw [isolateBody]

theorem isolateBody_cons_other (next : Nat) {literal : BodyLiteral} (body : List BodyLiteral)
    (other : ∀ atom, literal ≠ { literal := .predicate atom, delta := true }) :
    isolateBody next (literal :: body) = literal :: isolateBody next body := by
  rw [isolateBody]
  rintro atom rfl
  exact other atom rfl

/-- The arguments that have to be patterns. -/
def markedArgs : BodyLiteral → List Term
  | { literal := .predicate atom, delta := true } => atom.args
  | _ => []

theorem markedArgs_of_other {literal : BodyLiteral}
    (other : ∀ atom, literal ≠ { literal := .predicate atom, delta := true }) :
    markedArgs literal = [] := by
  rw [markedArgs]
  rintro atom rfl
  exact other atom rfl

/-- The number of the calls that are isolated in a body. -/
def isolatedCount (body : List BodyLiteral) : Nat :=
  (body.flatMap markedArgs).countP Term.containsCall

theorem isolatedCount_cons_marked (atom : Atom) (body : List BodyLiteral) :
    isolatedCount ({ literal := .predicate atom, delta := true } :: body) =
      atom.args.countP Term.containsCall + isolatedCount body := by
  simp [isolatedCount, markedArgs]

theorem isolatedCount_cons_other {literal : BodyLiteral} (body : List BodyLiteral)
    (other : ∀ atom, literal ≠ { literal := .predicate atom, delta := true }) :
    isolatedCount (literal :: body) = isolatedCount body := by
  simp [isolatedCount, markedArgs_of_other other]

theorem count_isolateBody {bound : Nat} {name : String}
    (notIsolated : ∀ index < bound, name ≠ isolatedName index) (next : Nat)
    (body : List BodyLiteral) (within : next + isolatedCount body ≤ bound) :
    ((isolateBody next body).flatMap BodyLiteral.vars).count name =
      (body.flatMap BodyLiteral.vars).count name := by
  induction body generalizing next with
  | nil => rfl
  | cons literal body ih =>
      by_cases marked : ∃ atom, literal = { literal := .predicate atom, delta := true }
      · obtain ⟨atom, rfl⟩ := marked
        rw [isolatedCount_cons_marked, ← Nat.add_assoc, ← isolateArgs_next] at within
        have := count_isolateArgs notIsolated next atom.args
          (Nat.le_trans (Nat.le_add_right _ _) within)
        rw [isolateBody_cons_marked]
        simp only [List.flatMap_append, List.flatMap_cons, List.count_append, ih _ within,
          BodyLiteral.vars, Literal.vars, Literal.terms] at this ⊢
        omega
      · have other : ∀ atom, literal ≠ { literal := .predicate atom, delta := true } :=
          fun atom same => marked ⟨atom, same⟩
        rw [isolatedCount_cons_other body other] at within
        rw [isolateBody_cons_other next body other]
        simp [List.count_append, ih next within]

/-- A variable that is not one of the new names occurs as often as before. -/
theorem varCount_isolateCalls_of_ne {rule : DeltaRule} {name : String}
    (notIsolated : ∀ index < isolatedCount rule.body, name ≠ isolatedName index) :
    rule.isolateCalls.varCount name = rule.varCount name := by
  simp only [varCount, occurrences, isolateCalls, List.count_append,
    count_isolateBody notIsolated 0 rule.body (Nat.le_of_eq (Nat.zero_add _))]

theorem varCount_isolateCalls {rule : DeltaRule}
    (avoids : AvoidsBelow (isolatedCount rule.body) rule.occurrences) {name : String}
    (occurs : name ∈ rule.occurrences) : rule.isolateCalls.varCount name = rule.varCount name := by
  apply varCount_isolateCalls_of_ne
  rintro index below rfl
  exact avoids index below occurs

theorem marksPositive_cons {literal : BodyLiteral} {body : List BodyLiteral}
    (marksPositive : MarksPositive (literal :: body)) : MarksPositive body :=
  fun atom member => marksPositive atom (List.mem_cons_of_mem _ member)

theorem marksPositive_isolateBody {body : List BodyLiteral} (marksPositive : MarksPositive body)
    (next : Nat) : MarksPositive (isolateBody next body) := by
  induction body generalizing next with
  | nil => simp [isolateBody, MarksPositive]
  | cons literal body ih =>
      have others := ih (marksPositive_cons marksPositive)
      intro atom member
      by_cases marked : ∃ delta, literal = { literal := .predicate delta, delta := true }
      · obtain ⟨delta, rfl⟩ := marked
        rw [isolateBody_cons_marked] at member
        rcases List.mem_append.mp member with equation | member
        · obtain ⟨index, arg, same⟩ := eq_isolatedEquation_of_mem equation
          cases same
        · rcases List.mem_cons.mp member with same | further
          · cases same
            exact marksPositive delta List.mem_cons_self
          · exact others _ atom further
      · rw [isolateBody_cons_other next body fun delta same => marked ⟨delta, same⟩] at member
        rcases List.mem_cons.mp member with same | further
        · exact absurd ⟨atom, same.symm⟩ marked
        · exact others next atom further

/-- What satisfies the new literals satisfies the old ones. -/
theorem holds_of_isolateBody {assignment : Assignment} {positive : Bool → Model}
    {negative : Model} {count : String → Nat} {next : Nat} {body : List BodyLiteral}
    (marksPositive : MarksPositive body)
    (holds : ∀ literal ∈ isolateBody next body,
      literal.Holds meaning positive negative count assignment) :
    ∀ literal ∈ body, literal.Holds meaning positive negative count assignment := by
  induction body generalizing next with
  | nil => simp
  | cons literal body ih =>
      by_cases marked : ∃ atom, literal = { literal := .predicate atom, delta := true }
      · obtain ⟨atom, rfl⟩ := marked
        rw [isolateBody_cons_marked] at holds
        simp only [List.forall_mem_append, List.forall_mem_cons] at holds ⊢
        obtain ⟨equationsHold, atomHolds, bodyHolds⟩ := holds
        refine ⟨?_, ih (marksPositive_cons marksPositive) bodyHolds⟩
        have isPositive := marksPositive atom List.mem_cons_self
        have sameArgs := evalList_isolateArgs next atom.args equationsHold
        simpa [BodyLiteral.Holds, Literal.Holds, isPositive, Atom.HoldsIn, sameArgs]
          using atomHolds
      · rw [isolateBody_cons_other next body fun atom same => marked ⟨atom, same⟩] at holds
        simp only [List.forall_mem_cons] at holds ⊢
        exact ⟨holds.1, ih (marksPositive_cons marksPositive) holds.2⟩

/-- The numbered variables of a marked atom can be filled so that its equations and the new atom
hold. -/
theorem exists_fills_atom {bound : Nat} {assignment : Assignment} {positive : Bool → Model}
    {negative : Model} {count : String → Nat} (count' : String → Nat) {atom : Atom}
    (isPositive : atom.negated = false) (avoids : AvoidsBelow bound (Term.varsList atom.args))
    (holds : BodyLiteral.Holds meaning positive negative count assignment
      { literal := .predicate atom, delta := true }) (next : Nat)
    (within : (isolateArgs next atom.args).2.2 ≤ bound) :
    ∃ fills : Nat → Value, ∀ fills' : Nat → Value, KeepsFrom bound assignment fills' →
      (∀ index, next ≤ index → index < (isolateArgs next atom.args).2.2 →
        fills' index = fills index) →
        (∀ equation ∈ (isolateArgs next atom.args).2.1,
          equation.Holds meaning positive negative count' (refilled assignment fills')) ∧
        BodyLiteral.Holds meaning positive negative count' (refilled assignment fills')
          { literal := .predicate { atom with args := (isolateArgs next atom.args).1 },
            delta := true } := by
  simp only [BodyLiteral.Holds, Literal.Holds, isPositive] at holds
  obtain ⟨values, evaluated, member⟩ := holds
  obtain ⟨fills, equationsHold⟩ := exists_fills_args positive negative count' avoids evaluated next
    within
  refine ⟨fills, fun fills' keeps agree => ?_⟩
  have equations := equationsHold fills' keeps agree
  have sameArgs := evalList_isolateArgs next atom.args equations
  have oldArgs : Term.evalList meaning (refilled assignment fills') atom.args = some values := by
    rw [← evaluated]
    exact Term.evalList_congr _ fun name occurs => refilled_of_avoids avoids keeps occurs
  refine ⟨equations, ?_⟩
  simp only [BodyLiteral.Holds, Literal.Holds, isPositive]
  exact ⟨values, sameArgs.trans oldArgs, member⟩

/-- The numbered variables can be filled so that what satisfies the old literals satisfies the new
ones. -/
theorem exists_fills_body {bound : Nat} {assignment : Assignment} {positive : Bool → Model}
    {negative : Model} {count count' : String → Nat} {body : List BodyLiteral}
    (marksPositive : MarksPositive body)
    (avoids : AvoidsBelow bound (body.flatMap BodyLiteral.vars))
    (sameCount : ∀ name ∈ body.flatMap BodyLiteral.vars, count name = count' name)
    (holds : ∀ literal ∈ body, literal.Holds meaning positive negative count assignment)
    (next : Nat) (within : next + isolatedCount body ≤ bound) :
    ∃ fills : Nat → Value, ∀ fills' : Nat → Value, KeepsFrom bound assignment fills' →
      (∀ index, next ≤ index → index < bound → fills' index = fills index) →
        ∀ literal ∈ isolateBody next body,
          literal.Holds meaning positive negative count' (refilled assignment fills') := by
  induction body generalizing next with
  | nil => exact ⟨fun _ => default, by simp [isolateBody]⟩
  | cons literal body ih =>
      simp only [List.flatMap_cons, List.mem_append] at sameCount
      have avoidsFirst : AvoidsBelow bound literal.vars :=
        avoids.mono fun name member => by simp [member]
      have avoidsBody : AvoidsBelow bound (body.flatMap BodyLiteral.vars) :=
        avoids.mono fun name member => by
          rw [List.flatMap_cons]
          exact List.mem_append_right _ member
      obtain ⟨literalHolds, bodyHolds⟩ := List.forall_mem_cons.mp holds
      have others := ih (marksPositive_cons marksPositive) avoidsBody
        (fun name member => sameCount name (.inr member)) bodyHolds
      by_cases marked : ∃ atom, literal = { literal := .predicate atom, delta := true }
      · -- The numbers are split: the first ones are for this atom, the others for the rest of the body.
        obtain ⟨atom, rfl⟩ := marked
        rw [isolatedCount_cons_marked, ← Nat.add_assoc, ← isolateArgs_next] at within
        have withinArgs : (isolateArgs next atom.args).2.2 ≤ bound :=
          Nat.le_trans (Nat.le_add_right _ _) within
        obtain ⟨fillsArgs, atomHolds⟩ := exists_fills_atom count'
          (marksPositive atom List.mem_cons_self) avoidsFirst literalHolds next withinArgs
        obtain ⟨fillsBody, restHolds⟩ := others (isolateArgs next atom.args).2.2 within
        refine ⟨fun index => if index < (isolateArgs next atom.args).2.2 then fillsArgs index
          else fillsBody index, fun fills' keeps agree => ?_⟩
        rw [isolateBody_cons_marked]
        simp only [List.forall_mem_append, List.forall_mem_cons]
        obtain ⟨equations, newAtom⟩ := atomHolds fills' keeps fun index above below =>
          (agree index above (Nat.lt_of_lt_of_le below withinArgs)).trans (if_pos below)
        refine ⟨equations, newAtom, restHolds fills' keeps fun index above below => ?_⟩
        have starts : next ≤ index := by
          rw [isolateArgs_next] at above
          omega
        simpa [Nat.not_lt.mpr above] using agree index starts below
      · -- The literal stays, and none of its variables is among the numbered ones.
        have other : ∀ atom, literal ≠ { literal := .predicate atom, delta := true } :=
          fun atom same => marked ⟨atom, same⟩
        rw [isolatedCount_cons_other body other] at within
        rw [isolateBody_cons_other next body other]
        obtain ⟨fills, restHolds⟩ := others next within
        refine ⟨fills, fun fills' keeps agree =>
          List.forall_mem_cons.mpr ⟨?_, restHolds fills' keeps agree⟩⟩
        rw [BodyLiteral.Holds,
          ← Literal.holds_count_congr fun name occurs => sameCount name (.inl occurs)]
        refine (Literal.holds_congr fun name occurs => ?_).mp literalHolds
        exact (refilled_of_avoids avoidsFirst keeps occurs).symm

/-! ## Rules -/

section

variable {rule : DeltaRule} {positive : Bool → Model} {negative : Model} {assignment : Assignment}
  (marksPositive : MarksPositive rule.body)
  (avoids : AvoidsBelow (isolatedCount rule.body) rule.occurrences)

include marksPositive avoids

/-- An assignment that satisfies the rule with isolated calls satisfies the rule. -/
theorem holds_of_isolateCalls
    (holds : ∀ literal ∈ rule.isolateCalls.body,
      literal.Holds meaning positive negative rule.isolateCalls.varCount assignment) :
    ∀ literal ∈ rule.body, literal.Holds meaning positive negative rule.varCount assignment := by
  intro literal member
  have sameCount : ∀ name ∈ literal.vars, rule.isolateCalls.varCount name = rule.varCount name :=
    fun name occurs => varCount_isolateCalls avoids
      (List.mem_append_right _ (List.mem_flatMap.mpr ⟨literal, member, occurs⟩))
  rw [BodyLiteral.Holds, ← Literal.holds_count_congr sameCount]
  exact holds_of_isolateBody marksPositive holds literal member

/-- An assignment that satisfies a rule can be extended to the new variables. -/
theorem exists_holds_isolateCalls
    (holds : ∀ literal ∈ rule.body,
      literal.Holds meaning positive negative rule.varCount assignment) :
    ∃ other : Assignment, (∀ name ∈ rule.occurrences, other name = assignment name) ∧
      ∀ literal ∈ rule.isolateCalls.body,
        literal.Holds meaning positive negative rule.isolateCalls.varCount other := by
  have avoidsBody : AvoidsBelow (isolatedCount rule.body) (rule.body.flatMap BodyLiteral.vars) :=
    avoids.mono fun name member => List.mem_append_right _ member
  have sameCount : ∀ name ∈ rule.body.flatMap BodyLiteral.vars,
      rule.varCount name = rule.isolateCalls.varCount name := fun name member =>
    (varCount_isolateCalls avoids (List.mem_append_right _ member)).symm
  obtain ⟨fills, fillsHold⟩ := exists_fills_body marksPositive avoidsBody sameCount holds 0
    (Nat.le_of_eq (Nat.zero_add _))
  -- The names that are not introduced may occur in the rule, so they keep their values.
  let kept : Nat → Value := fun index =>
    if index < isolatedCount rule.body then fills index else assignment (isolatedName index)
  have keeps : KeepsFrom (isolatedCount rule.body) assignment kept :=
    fun index above => if_neg (Nat.not_lt.mpr above)
  exact ⟨refilled assignment kept, fun name member => refilled_of_avoids avoids keeps member,
    fillsHold kept keeps fun index _ below => if_pos below⟩

/-- Isolating calls leaves what a rule derives as it is. -/
theorem consequences_isolateCalls :
    rule.isolateCalls.consequences meaning positive negative =
      rule.consequences meaning positive negative := by
  apply Set.Subset.antisymm
  · rintro fact ⟨assignment, values, holds, headEq, factEq⟩
    exact ⟨assignment, values, holds_of_isolateCalls marksPositive avoids holds, headEq, factEq⟩
  · rintro fact ⟨assignment, values, holds, headEq, factEq⟩
    obtain ⟨other, agrees, otherHolds⟩ := exists_holds_isolateCalls marksPositive avoids holds
    refine ⟨other, values, otherHolds, ?_, factEq⟩
    rw [← headEq]
    exact Term.evalList_congr _ fun name occurs => agrees name (List.mem_append_left _ occurs)

end

end DeltaRule

end Datalog
