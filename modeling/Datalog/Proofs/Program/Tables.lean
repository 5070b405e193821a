import Datalog.Proofs.Program.Calls
import Mathlib.Logic.Function.Basic

/-!
# Linked tables

A program can be kept in tables that calls change in place: the relations in the order of their
declaration and by name, the base facts by relation, the rules and the query.  The tables never come
apart: they show the same program after every sequence of calls, the refused ones included.
-/

namespace Datalog

/-- The tables of a program. -/
structure Tables where
  relations : List RelationSymbol := []
  byName : String → Option RelationSymbol := fun _ => none
  facts : RelationSymbol → Option (List (List Term)) := fun _ => none
  rules : List Rule := []
  query : Option Atom := none

namespace Tables

/-- What changes tables in place, and may be refused on the way. -/
abbrev Operation := EStateM ProgramError Tables Unit

def declare (name : String) (arity : Nat) : Operation := do
  match (← get).byName name with
  | some declared =>
      if declared.arity ≠ arity then
        throw (.duplicateRelation name declared.arity arity)
  | none =>
      let symbol : RelationSymbol := { name, arity }
      modify fun tables =>
        { tables with byName := Function.update tables.byName name (some symbol) }
      modify fun tables => { tables with relations := tables.relations ++ [symbol] }

def checkUse (symbol : RelationSymbol) (args : List Term) : Operation := do
  match (← get).byName symbol.name with
  | none => throw (.unknownRelation symbol.name)
  | some declared =>
      if declared ≠ symbol then
        throw (.arityMismatch symbol.name declared.arity symbol.arity)
      if args.length ≠ symbol.arity then
        throw (.arityMismatch symbol.name symbol.arity args.length)

def checkBody : List Literal → Operation
  | [] => pure ()
  | .unification .. :: body => checkBody body
  | .predicate atom :: body => do
      checkUse atom.symbol atom.args
      checkBody body

def addFact (fact : Fact) : Operation := do
  checkUse fact.symbol fact.args
  if Term.isGroundList fact.args then
    modify fun tables =>
      let rows := (tables.facts fact.symbol).getD []
      { tables with facts := Function.update tables.facts fact.symbol (some (rows ++ [fact.args])) }
  else
    throw (.nonGroundFact fact.toAtom)

def addRule (rule : Rule) : Operation := do
  checkUse rule.head.symbol rule.head.args
  checkBody rule.body
  modify fun tables => { tables with rules := tables.rules ++ [rule] }

def setQuery (query : Atom) : Operation := do
  checkUse query.symbol query.args
  modify fun tables => { tables with query := some query }

def perform : Call → Operation
  | .declare name arity => declare name arity
  | .addFact fact => addFact fact
  | .addRule rule => addRule rule
  | .setQuery query => setQuery query

/-- The tables that a call leaves, also one that was refused. -/
def afterCall (tables : Tables) (call : Call) : Tables :=
  match perform call tables with
  | .ok _ later => later
  | .error _ later => later

def ofCalls (calls : List Call) : Tables :=
  calls.foldl afterCall {}

structure Shows (tables : Tables) (program : Program) : Prop where
  relations_eq : tables.relations = program.relations
  byName_eq : ∀ name, tables.byName name = program.relation? name
  facts_eq : ∀ symbol, tables.facts symbol =
    if program.factsFor symbol = [] then none else some (program.factsFor symbol)
  rules_eq : tables.rules = program.rules
  query_eq : tables.query = program.query

variable {tables : Tables} {program : Program}

/-- An operation on the tables and one on the program have the same outcome, and a refused one has
left the tables as they were. -/
inductive Agrees (tables : Tables) :
    Except ProgramError Program → EStateM.Result ProgramError Tables Unit → Prop where
  | accepted {later : Program} {changed : Tables} (same : changed.Shows later) :
      Agrees tables (.ok later) (.ok () changed)
  | refused (error : ProgramError) : Agrees tables (.error error) (.error error tables)

section Agreement

variable {outcome : Except ProgramError Program} {result : EStateM.Result ProgramError Tables Unit}

theorem Agrees.accepted_iff (agrees : tables.Agrees outcome result) :
    (∃ changed, result = .ok () changed) ↔ ∃ later, outcome = .ok later := by
  cases agrees <;> simp

theorem Agrees.eq_of_refused (agrees : tables.Agrees outcome result) {error : ProgramError}
    {changed : Tables} (refused : result = .error error changed) :
    outcome = .error error ∧ changed = tables := by
  cases agrees with
  | accepted => cases refused
  | refused =>
      cases refused
      exact ⟨rfl, rfl⟩

end Agreement

/-! ## Checks -/

/-- The answer to a check, which changes nothing. -/
def answer (tables : Tables) : Except ProgramError Unit → EStateM.Result ProgramError Tables Unit
  | .ok _ => .ok () tables
  | .error error => .error error tables

theorem run_get_bind (next : Tables → Operation) : (get >>= next) tables = next tables tables :=
  rfl

theorem run_bind (check next : Operation) :
    (check >>= fun _ => next) tables =
      match check tables with
      | .ok _ later => next later
      | .error error later => .error error later := by
  change EStateM.bind check (fun _ => next) tables = _
  unfold EStateM.bind
  cases check tables <;> rfl

theorem agrees_after_check {check next : Operation} {outcome : Except ProgramError Unit}
    {rest : Except ProgramError Program} (checked : check tables = tables.answer outcome)
    (behind : tables.Agrees rest (next tables)) :
    tables.Agrees (outcome >>= fun _ => rest) ((check >>= fun _ => next) tables) := by
  rw [run_bind, checked]
  cases outcome with
  | ok => exact behind
  | error error => exact .refused error

theorem Shows.checkUse (same : tables.Shows program) (symbol : RelationSymbol) (args : List Term) :
    Tables.checkUse symbol args tables = tables.answer (program.checkUse symbol args) := by
  rw [Tables.checkUse, run_get_bind, same.byName_eq, Program.checkUse]
  cases program.relation? symbol.name with
  | none => rfl
  | some declared =>
      by_cases known : declared = symbol
      · by_cases length : args.length = symbol.arity
        · simp [known, length]
          rfl
        · simp [known, length]
          rfl
      · simp [known]
        rfl

theorem Shows.checkBody (same : tables.Shows program) (body : List Literal) :
    Tables.checkBody body tables = tables.answer (program.checkBody body) := by
  induction body with
  | nil => rfl
  | cons literal body ih =>
      cases literal with
      | unification => exact ih
      | predicate atom =>
          rw [Tables.checkBody, run_bind, same.checkUse atom.symbol atom.args]
          cases used : program.checkUse atom.symbol atom.args with
          | ok => simpa [Program.checkBody, used, bind, Except.bind, answer] using ih
          | error => simp [Program.checkBody, used, bind, Except.bind, answer]

/-! ## One call -/

theorem shows_empty : Shows {} {} where
  relations_eq := rfl
  byName_eq _ := rfl
  facts_eq _ := rfl
  rules_eq := rfl
  query_eq := rfl

theorem Shows.declare (same : tables.Shows program) (name : String) (arity : Nat) :
    tables.Agrees (program.declare name arity) (Tables.declare name arity tables) := by
  rw [Tables.declare, run_get_bind, same.byName_eq, Program.declare]
  cases found : program.relation? name with
  | some declared =>
      by_cases known : declared.arity = arity
      · simp only [known, ne_eq, not_true_eq_false, if_true, if_false]
        exact .accepted same
      · simp only [known, ne_eq, not_false_eq_true, if_true, if_false]
        exact .refused _
  | none =>
      apply Agrees.accepted
      constructor
      · exact congrArg (· ++ _) same.relations_eq
      · intro other
        have step : Program.relation?
            { program with relations := program.relations ++ [{ name, arity }] } other =
              (program.relation? other).or (if name = other then some { name, arity } else none) := by
          simp only [Program.relation?, List.find?_append, List.find?_singleton]
          simp
        rw [step]
        by_cases here : other = name
        · subst here
          simp [found]
        · simp [Function.update_of_ne here, same.byName_eq, Ne.symm here]
      · exact same.facts_eq
      · exact same.rules_eq
      · exact same.query_eq

theorem Shows.addFact (same : tables.Shows program) (fact : Fact) :
    tables.Agrees (program.addFact fact) (Tables.addFact fact tables) := by
  apply agrees_after_check (same.checkUse fact.symbol fact.args)
  by_cases ground : Term.isGroundList fact.args = true
  · rw [if_pos ground, if_pos ground]
    apply Agrees.accepted
    refine { same with facts_eq := ?_ }
    intro symbol
    by_cases here : symbol = fact.symbol
    · subst here
      have appended : Program.factsFor { program with facts := program.facts ++ [fact] } fact.symbol =
          program.factsFor fact.symbol ++ [fact.args] := by
        simp [Program.factsFor]
      have stored : (tables.facts fact.symbol).getD [] = program.factsFor fact.symbol := by
        rw [same.facts_eq]
        split <;> simp [*]
      simp [appended, stored]
    · have others : fact.symbol ≠ symbol := Ne.symm here
      simp [Function.update_of_ne here, same.facts_eq, Program.factsFor, others]
  · rw [if_neg ground, if_neg ground]
    exact .refused _

/-- Operations on the tables and on the program give the same answer. -/
theorem Shows.perform (same : tables.Shows program) (call : Call) :
    tables.Agrees (program.perform call) (Tables.perform call tables) := by
  cases call with
  | declare name arity => exact same.declare name arity
  | addFact fact => exact same.addFact fact
  | addRule rule =>
      apply agrees_after_check (same.checkUse rule.head.symbol rule.head.args)
      apply agrees_after_check (same.checkBody rule.body)
      exact .accepted { same with rules_eq := congrArg (· ++ [rule]) same.rules_eq }
  | setQuery query =>
      apply agrees_after_check (same.checkUse query.symbol query.args)
      exact .accepted { same with query_eq := rfl }

/-! ## Calls one after another -/

theorem Shows.afterCall (same : tables.Shows program) (call : Call) :
    (tables.afterCall call).Shows (program.afterCall call) := by
  have agrees := same.perform call
  unfold Tables.afterCall Program.afterCall
  revert agrees
  generalize program.perform call = outcome
  generalize Tables.perform call tables = result
  intro agrees
  cases agrees with
  | accepted changed => exact changed
  | refused error => exact same

/-- The tables show the program that is built, also after calls that were refused. -/
theorem shows_ofCalls (calls : List Call) : (ofCalls calls).Shows (Program.ofCalls calls) := by
  induction calls using List.reverseRecOn with
  | nil => exact shows_empty
  | append_singleton calls call ih =>
      rw [Program.ofCalls_concat, ofCalls, List.foldl_append]
      exact ih.afterCall call

/-- A call of the tables is accepted if what it is given is admissible, and otherwise nothing has
changed. -/
structure Guards (tables : Tables) (program : Program) (call : Call) : Prop where
  accepts : (∃ changed, perform call tables = .ok () changed) ↔ program.Admissible call
  refuses : ∀ error changed, perform call tables = .error error changed →
    program.perform call = .error error ∧ changed = tables

theorem Shows.guards (same : tables.Shows program) (wellFormed : program.WellFormed) (call : Call) :
    tables.Guards program call := by
  have agrees := same.perform call
  constructor
  · rw [agrees.accepted_iff]
    simp [wellFormed.perform_eq_ok]
  · intro error changed refused
    exact agrees.eq_of_refused refused

end Tables

namespace Program

/-- Names stand for one declared relation, everything uses relations as they are declared, facts are
ground, and the dependencies join relations that rules define. -/
structure Sound (program : Program) : Prop where
  names_nodup : (program.relations.map (·.name)).Nodup
  lookup : ∀ name symbol,
    program.relation? name = some symbol ↔ symbol ∈ program.relations ∧ symbol.name = name
  facts : ∀ fact ∈ program.facts,
    Uses program.relations fact.symbol fact.args ∧ Term.varsList fact.args = []
  heads : ∀ rule ∈ program.rules, Uses program.relations rule.head.symbol rule.head.args
  bodies : ∀ rule ∈ program.rules, ∀ atom, .predicate atom ∈ rule.body →
    Uses program.relations atom.symbol atom.args
  query : ∀ query, program.query = some query → Uses program.relations query.symbol query.args
  derived : ∀ rule ∈ program.rules, rule.head.symbol ∈ program.ruleSymbols
  closed : program.dependencies.Closed

theorem sound_ofCalls (calls : List Call) : (ofCalls calls).Sound := by
  have wellFormed := (built_ofCalls calls).wellFormed
  constructor
  · exact wellFormed.names_nodup
  · exact fun _ _ => wellFormed.relation?_eq_some
  · intro fact member
    exact ⟨wellFormed.facts fact member, (Term.isGroundList_iff _).mp (wellFormed.ground fact member)⟩
  · exact wellFormed.heads
  · exact wellFormed.bodies
  · exact fun _ isQuery => uses_query isQuery
  · intro rule member
    exact mem_ruleSymbols.mpr ⟨(wellFormed.heads rule member).declared, rule, member, rfl⟩
  · exact closed_dependencies wellFormed

/-- After any sequence of calls, the program and its tables hold what the accepted calls gave, in this
order, and used as it was declared; a call that is refused changes nothing. -/
theorem kept_ofCalls (calls : List Call) :
    (ofCalls calls).Sound ∧ (ofCalls calls).Collects (acceptedFrom {} calls) ∧
      (Tables.ofCalls calls).Shows (ofCalls calls) ∧
        ∀ call, (Tables.ofCalls calls).Guards (ofCalls calls) call := by
  have same := Tables.shows_ofCalls calls
  have wellFormed := (built_ofCalls calls).wellFormed
  exact ⟨sound_ofCalls calls, collects_ofCalls calls, same, fun call => same.guards wellFormed call⟩

end Program

end Datalog
