import Datalog.Proofs.Semantics.Interning
import Datalog.Proofs.Stratification

/-!
# Sequences of calls

A program is built by calls that may be given anything.  A call is accepted exactly if it uses
relations as they are declared, and it is refused without a trace: the relations, facts and rules of a
program are those of the accepted calls, in their order.
-/

namespace Datalog

namespace Term

mutual

theorem isGround_iff : (term : Term) → (term.isGround = true ↔ term.vars = [])
  | .var _ => by simp [isGround, vars]
  | .bool _ | .int _ | .str _ => by simp [isGround, vars]
  | .ctor _ args | .call _ args => by
      simp only [isGround, vars]
      exact isGroundList_iff args

theorem isGroundList_iff : (terms : List Term) → (isGroundList terms = true ↔ varsList terms = [])
  | [] => by simp [isGroundList, varsList]
  | term :: terms => by
      simp only [isGroundList, varsList, Bool.and_eq_true, List.append_eq_nil_iff]
      exact and_congr (isGround_iff term) (isGroundList_iff terms)

end

end Term

/-- A call of an operation that builds a program. -/
inductive Call where
  | declare (name : String) (arity : Nat)
  | addFact (fact : Fact)
  | addRule (rule : Rule)
  | setQuery (query : Atom)

namespace Call

def declaration? : Call → Option RelationSymbol
  | .declare name arity => some { name, arity }
  | _ => none

def fact? : Call → Option Fact
  | .addFact fact => some fact
  | _ => none

def rule? : Call → Option Rule
  | .addRule rule => some rule
  | _ => none

def query? : Call → Option Atom
  | .setQuery query => some query
  | _ => none

end Call

namespace Program

/-- The answer to a call. -/
def perform (program : Program) : Call → Except ProgramError Program
  | .declare name arity => program.declare name arity
  | .addFact fact => program.addFact fact
  | .addRule rule => program.addRule rule
  | .setQuery query => program.setQuery query

/-- The program after a call, which may have been refused. -/
def afterCall (program : Program) (call : Call) : Program :=
  match program.perform call with
  | .ok later => later
  | .error _ => program

def ofCalls (calls : List Call) : Program :=
  calls.foldl afterCall {}

/-- The calls that a program accepts, one after another. -/
def acceptedFrom (program : Program) : List Call → List Call
  | [] => []
  | call :: calls =>
      let others := acceptedFrom (program.afterCall call) calls
      if (program.perform call).isOk then call :: others else others

/-- What a call has to be given. -/
def Admissible (program : Program) : Call → Prop
  | .declare name arity =>
      ∀ declared ∈ program.relations, declared.name = name → declared.arity = arity
  | .addFact fact =>
      Uses program.relations fact.symbol fact.args ∧ Term.varsList fact.args = []
  | .addRule rule =>
      Uses program.relations rule.head.symbol rule.head.args ∧
        ∀ atom, .predicate atom ∈ rule.body → Uses program.relations atom.symbol atom.args
  | .setQuery query => Uses program.relations query.symbol query.args

/-- A program with what a call adds to it. -/
def extendedBy (program : Program) (call : Call) : Program where
  relations := program.relations ++ call.declaration?.toList.filter (· ∉ program.relations)
  facts := program.facts ++ call.fact?.toList
  rules := program.rules ++ call.rule?.toList
  query := call.query?.or program.query

variable {program later : Program}

/-! ## One call -/

/-- Names and declared relations determine each other. -/
theorem WellFormed.relation?_eq_some (wellFormed : program.WellFormed) {name : String}
    {symbol : RelationSymbol} :
    program.relation? name = some symbol ↔ symbol ∈ program.relations ∧ symbol.name = name := by
  constructor
  · intro found
    exact ⟨List.mem_of_find?_eq_some found, by simpa using List.find?_some found⟩
  · rintro ⟨declared, rfl⟩
    cases found : program.relation? symbol.name with
    | none =>
        have := List.find?_eq_none.mp found symbol declared
        simp at this
    | some other =>
        have sameName : other.name = symbol.name := by simpa using List.find?_some found
        have := List.inj_on_of_nodup_map wellFormed.names_nodup
          (List.mem_of_find?_eq_some found) declared sameName
        rw [this]

theorem WellFormed.checkUse_eq_ok (wellFormed : program.WellFormed) {symbol : RelationSymbol}
    {args : List Term} :
    program.checkUse symbol args = .ok () ↔ Uses program.relations symbol args := by
  constructor
  · exact uses_of_checkUse
  · intro uses
    have found := wellFormed.relation?_eq_some.mpr ⟨uses.declared, rfl⟩
    simp [checkUse, found, uses.length_eq]

theorem WellFormed.checkBody_eq_ok (wellFormed : program.WellFormed) {body : List Literal} :
    program.checkBody body = .ok () ↔
      ∀ atom, .predicate atom ∈ body → Uses program.relations atom.symbol atom.args := by
  constructor
  · exact uses_of_checkBody
  · intro uses
    induction body with
    | nil => rfl
    | cons literal body ih =>
        have behind := ih fun atom member => uses atom (List.mem_cons_of_mem _ member)
        cases literal with
        | unification lhs rhs negated => exact behind
        | predicate atom =>
            have here := wellFormed.checkUse_eq_ok.mpr (uses atom List.mem_cons_self)
            simp [checkBody, here, behind, bind, Except.bind]

/-- A call is accepted if it is admissible, and then adds to the program. -/
theorem WellFormed.perform_eq_ok (wellFormed : program.WellFormed) {call : Call} :
    program.perform call = .ok later ↔
      program.Admissible call ∧ later = program.extendedBy call := by
  cases call with
  | declare name arity =>
      cases found : program.relation? name with
      | none =>
          have undeclared : ∀ declared ∈ program.relations, declared.name ≠ name := by
            intro declared member
            simpa using List.find?_eq_none.mp found declared member
          have absent : ({ name, arity } : RelationSymbol) ∉ program.relations :=
            fun member => undeclared _ member rfl
          have admissible : program.Admissible (.declare name arity) :=
            fun declared member same => absurd same (undeclared declared member)
          simp [perform, Program.declare, found, admissible, extendedBy, Call.declaration?,
            Call.fact?, Call.rule?, Call.query?, absent, eq_comm]
      | some declared =>
          -- Names are declared once, so that only the same number of columns is admissible.
          obtain ⟨member, rfl⟩ := wellFormed.relation?_eq_some.mp found
          have admissible_iff :
              program.Admissible (.declare declared.name arity) ↔ declared.arity = arity := by
            constructor
            · exact fun admissible => admissible declared member rfl
            · rintro rfl other otherMember sameName
              have := wellFormed.relation?_eq_some.mpr ⟨otherMember, sameName⟩
              rw [found, Option.some.injEq] at this
              rw [this]
          rw [admissible_iff]
          by_cases same : declared.arity = arity
          · subst same
            have unchanged : program.extendedBy (.declare declared.name declared.arity) = program := by
              simp [extendedBy, Call.declaration?, Call.fact?, Call.rule?, Call.query?, member]
            simp [perform, Program.declare, found, unchanged, eq_comm]
          · simp [perform, Program.declare, found, same]
  | addFact fact =>
      rw [Admissible, ← wellFormed.checkUse_eq_ok, ← Term.isGroundList_iff]
      cases used : program.checkUse fact.symbol fact.args with
      | error => simp [perform, Program.addFact, used, bind, Except.bind]
      | ok =>
          cases ground : Term.isGroundList fact.args <;>
            simp [perform, Program.addFact, used, ground, bind, Except.bind, extendedBy,
              Call.declaration?, Call.fact?, Call.rule?, Call.query?, eq_comm]
  | addRule rule =>
      rw [Admissible, ← wellFormed.checkUse_eq_ok, ← wellFormed.checkBody_eq_ok]
      cases head : program.checkUse rule.head.symbol rule.head.args with
      | error => simp [perform, Program.addRule, head, bind, Except.bind]
      | ok =>
          cases body : program.checkBody rule.body <;>
            simp [perform, Program.addRule, head, body, bind, Except.bind, extendedBy,
              Call.declaration?, Call.fact?, Call.rule?, Call.query?, eq_comm]
  | setQuery query =>
      rw [Admissible, ← wellFormed.checkUse_eq_ok]
      cases used : program.checkUse query.symbol query.args <;>
        simp [perform, Program.setQuery, used, bind, Except.bind, extendedBy,
          Call.declaration?, Call.fact?, Call.rule?, Call.query?, eq_comm]

theorem WellFormed.afterCall_eq (wellFormed : program.WellFormed) {call : Call} :
    (program.Admissible call → program.afterCall call = program.extendedBy call) ∧
      (¬program.Admissible call → program.afterCall call = program) := by
  unfold afterCall
  cases outcome : program.perform call with
  | ok later =>
      obtain ⟨admissible, extended⟩ := wellFormed.perform_eq_ok.mp outcome
      exact ⟨fun _ => extended, fun refused => absurd admissible refused⟩
  | error error =>
      constructor
      · intro admissible
        have accepted := wellFormed.perform_eq_ok.mpr ⟨admissible, rfl⟩
        rw [outcome] at accepted
        cases accepted
      · exact fun _ => rfl

/-! ## Calls one after another -/

theorem ofCalls_concat (calls : List Call) (call : Call) :
    ofCalls (calls ++ [call]) = (ofCalls calls).afterCall call := by
  simp [ofCalls]

theorem acceptedFrom_append (program : Program) (calls others : List Call) :
    program.acceptedFrom (calls ++ others) =
      program.acceptedFrom calls ++ (calls.foldl afterCall program).acceptedFrom others := by
  induction calls generalizing program with
  | nil => rfl
  | cons call calls ih =>
      rw [List.cons_append, acceptedFrom, acceptedFrom, ih, List.foldl_cons]
      split <;> rfl

theorem built_afterCall (built : program.Built) (call : Call) : (program.afterCall call).Built := by
  unfold afterCall
  cases outcome : program.perform call with
  | error => exact built
  | ok later =>
      cases call with
      | declare name arity => exact .declare built outcome
      | addFact fact => exact .addFact built outcome
      | addRule rule => exact .addRule built outcome
      | setQuery query => exact .setQuery built outcome

theorem built_ofCalls (calls : List Call) : (ofCalls calls).Built := by
  induction calls using List.reverseRecOn with
  | nil => exact .empty
  | append_singleton calls call ih =>
      rw [ofCalls_concat]
      exact built_afterCall ih call

theorem Built.exists_calls (built : program.Built) : ∃ calls, ofCalls calls = program := by
  have step : ∀ {program later : Program} (call : Call), program.perform call = .ok later →
      (∃ calls, ofCalls calls = program) → ∃ calls, ofCalls calls = later := by
    rintro program later call accepted ⟨calls, rfl⟩
    refine ⟨calls ++ [call], ?_⟩
    rw [ofCalls_concat, afterCall, accepted]
  induction built with
  | empty => exact ⟨[], rfl⟩
  | @declare _ _ name arity _ accepted ih => exact step (.declare name arity) accepted ih
  | @addFact _ _ fact _ accepted ih => exact step (.addFact fact) accepted ih
  | @addRule _ _ rule _ accepted ih => exact step (.addRule rule) accepted ih
  | @setQuery _ _ query _ accepted ih => exact step (.setQuery query) accepted ih

/-- The relations, facts and rules of a program are those that some calls give, in their order, and
its query is the last one that they give. -/
structure Collects (program : Program) (calls : List Call) : Prop where
  relations : program.relations = (calls.filterMap Call.declaration?).eraseDups
  facts : program.facts = calls.filterMap Call.fact?
  rules : program.rules = calls.filterMap Call.rule?
  query : program.query = (calls.filterMap Call.query?).getLast?

theorem Collects.extendedBy {calls : List Call} (collects : program.Collects calls) (call : Call) :
    (program.extendedBy call).Collects (calls ++ [call]) := by
  constructor
  · rw [List.filterMap_append, Program.extendedBy, collects.relations]
    cases given : call.declaration? with
    | none => simp [given]
    | some declared =>
        have alone : [call].filterMap Call.declaration? = [declared] := by simp [given]
        rw [alone, eraseDups_concat]
        by_cases old : declared ∈ calls.filterMap Call.declaration?
        · rw [if_pos old]
          simpa using old
        · rw [if_neg old]
          simpa using old
  · rw [List.filterMap_append, Program.extendedBy, collects.facts]
    cases given : call.fact? <;> simp [given]
  · rw [List.filterMap_append, Program.extendedBy, collects.rules]
    cases given : call.rule? <;> simp [given]
  · rw [List.filterMap_append, Program.extendedBy, collects.query]
    cases given : call.query? <;> simp [given]

/-- A program is what the accepted calls have given. -/
theorem collects_ofCalls (calls : List Call) : (ofCalls calls).Collects (acceptedFrom {} calls) := by
  induction calls using List.reverseRecOn with
  | nil => constructor <;> rfl
  | append_singleton calls call ih =>
      have wellFormed := (built_ofCalls calls).wellFormed
      rw [ofCalls_concat, acceptedFrom_append]
      change ((ofCalls calls).afterCall call).Collects
        (acceptedFrom {} calls ++ (ofCalls calls).acceptedFrom [call])
      cases outcome : (ofCalls calls).perform call with
      | error =>
          have alone : (ofCalls calls).acceptedFrom [call] = [] := by
            simp [acceptedFrom, outcome, Except.isOk, Except.toBool]
          have same : (ofCalls calls).afterCall call = ofCalls calls := by simp [afterCall, outcome]
          rw [alone, same, List.append_nil]
          exact ih
      | ok later =>
          have alone : (ofCalls calls).acceptedFrom [call] = [call] := by
            simp [acceptedFrom, outcome, Except.isOk, Except.toBool]
          have extended := wellFormed.afterCall_eq.1 (wellFormed.perform_eq_ok.mp outcome).1
          rw [alone, extended]
          exact ih.extendedBy call

theorem uses_query {calls : List Call} {query : Atom}
    (isQuery : (ofCalls calls).query = some query) :
    Uses (ofCalls calls).relations query.symbol query.args := by
  induction calls using List.reverseRecOn with
  | nil => cases isQuery
  | append_singleton calls call ih =>
      have wellFormed := (built_ofCalls calls).wellFormed
      rw [ofCalls_concat] at isQuery ⊢
      by_cases admissible : (ofCalls calls).Admissible call
      · rw [wellFormed.afterCall_eq.1 admissible] at isQuery ⊢
        have grown : ∀ declared ∈ (ofCalls calls).relations,
            declared ∈ ((ofCalls calls).extendedBy call).relations :=
          fun _ member => List.mem_append_left _ member
        cases call with
        | setQuery given =>
            obtain rfl : given = query := Option.some.inj isQuery
            exact admissible.mono grown
        | declare | addFact | addRule => exact (ih isQuery).mono grown
      · rw [wellFormed.afterCall_eq.2 admissible] at isQuery ⊢
        exact ih isQuery

theorem Built.uses_query (built : program.Built) {query : Atom}
    (isQuery : program.query = some query) : Uses program.relations query.symbol query.args := by
  obtain ⟨calls, rfl⟩ := built.exists_calls
  exact Program.uses_query isQuery

end Program

end Datalog
