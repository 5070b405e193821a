import Datalog.Program
import Datalog.Proofs.Semantics.Consequence
import Mathlib.Data.List.Nodup

/-!
# Programs that were built

A program is built by declaring relations and adding facts, rules and a query.  Every operation checks
what it is given, so that a built program uses declared relations with the right number of arguments
only.
-/

namespace Datalog

namespace Program

/-- A program that operations have built from the empty one. -/
inductive Built : Program → Prop where
  | empty : Built {}
  | declare {program later : Program} {name : String} {arity : Nat} (built : Built program)
      (accepted : program.declare name arity = .ok later) : Built later
  | addFact {program later : Program} {fact : Fact} (built : Built program)
      (accepted : program.addFact fact = .ok later) : Built later
  | addRule {program later : Program} {rule : Rule} (built : Built program)
      (accepted : program.addRule rule = .ok later) : Built later
  | setQuery {program later : Program} {query : Atom} (built : Built program)
      (accepted : program.setQuery query = .ok later) : Built later

/-- A declared relation is used with the right number of arguments. -/
structure Uses (relations : List RelationSymbol) (symbol : RelationSymbol) (args : List Term) :
    Prop where
  declared : symbol ∈ relations
  length_eq : args.length = symbol.arity

/-- Relations are declared once, and everything uses them as they are declared. -/
structure WellFormed (program : Program) : Prop where
  names_nodup : (program.relations.map (·.name)).Nodup
  facts : ∀ fact ∈ program.facts, Uses program.relations fact.symbol fact.args
  ground : ∀ fact ∈ program.facts, Term.isGroundList fact.args = true
  heads : ∀ rule ∈ program.rules, Uses program.relations rule.head.symbol rule.head.args
  bodies : ∀ rule ∈ program.rules, ∀ atom, .predicate atom ∈ rule.body →
    Uses program.relations atom.symbol atom.args

variable {program later : Program}

theorem Uses.mono {relations more : List RelationSymbol} {symbol : RelationSymbol}
    {args : List Term} (uses : Uses relations symbol args)
    (grown : ∀ declared ∈ relations, declared ∈ more) : Uses more symbol args :=
  ⟨grown symbol uses.declared, uses.length_eq⟩

theorem uses_of_checkUse {symbol : RelationSymbol} {args : List Term}
    (checked : program.checkUse symbol args = .ok ()) : Uses program.relations symbol args := by
  unfold checkUse at checked
  split at checked
  · cases checked
  · next declared found =>
      split at checked
      · cases checked
      · next same =>
          split at checked
          · cases checked
          · next length =>
              obtain rfl : declared = symbol := by simpa using same
              exact ⟨List.mem_of_find?_eq_some found, by simpa using length⟩

theorem uses_of_checkBody {body : List Literal} (checked : program.checkBody body = .ok ()) :
    ∀ atom, .predicate atom ∈ body → Uses program.relations atom.symbol atom.args := by
  induction body with
  | nil => simp
  | cons literal body ih =>
      intro atom member
      cases literal with
      | unification lhs rhs negated =>
          have inBody : .predicate atom ∈ body := by simpa using member
          exact ih checked atom inBody
      | predicate first =>
          simp only [checkBody, bind, Except.bind] at checked
          split at checked
          · cases checked
          · next used =>
              rcases List.mem_cons.mp member with here | further
              · obtain rfl := Literal.predicate.inj here
                exact uses_of_checkUse used
              · exact ih checked atom further

theorem wellFormed_empty : WellFormed {} := by
  constructor <;> simp

theorem WellFormed.declare (wellFormed : program.WellFormed) {name : String} {arity : Nat}
    (accepted : program.declare name arity = .ok later) : later.WellFormed := by
  unfold Program.declare at accepted
  split at accepted
  · split at accepted
    · cases accepted
      exact wellFormed
    · cases accepted
  · next missing =>
      cases accepted
      have absent : name ∉ program.relations.map (·.name) := by
        rintro member
        obtain ⟨declared, inRelations, rfl⟩ := List.mem_map.mp member
        have := List.find?_eq_none.mp missing declared inRelations
        simp at this
      let declared : RelationSymbol := { name, arity }
      have grown : ∀ other ∈ program.relations, other ∈ program.relations ++ [declared] :=
        fun _ member => List.mem_append_left _ member
      refine ⟨?_, fun fact member => (wellFormed.facts fact member).mono grown, wellFormed.ground,
        fun rule member => (wellFormed.heads rule member).mono grown,
        fun rule member atom inBody => (wellFormed.bodies rule member atom inBody).mono grown⟩
      rw [List.map_append, List.nodup_append]
      refine ⟨wellFormed.names_nodup, by simp, ?_⟩
      rintro other member _ here rfl
      obtain rfl := List.mem_singleton.mp here
      exact absent member

theorem WellFormed.addFact (wellFormed : program.WellFormed) {fact : Fact}
    (accepted : program.addFact fact = .ok later) : later.WellFormed := by
  simp only [Program.addFact, bind, Except.bind] at accepted
  split at accepted
  · cases accepted
  · next used =>
      split at accepted
      · next ground =>
          cases accepted
          refine { wellFormed with facts := ?_, ground := ?_ }
          · intro other member
            rcases List.mem_append.mp member with before | here
            · exact wellFormed.facts other before
            · obtain rfl := List.mem_singleton.mp here
              exact uses_of_checkUse used
          · intro other member
            rcases List.mem_append.mp member with before | here
            · exact wellFormed.ground other before
            · obtain rfl := List.mem_singleton.mp here
              exact ground
      · cases accepted

theorem WellFormed.addRule (wellFormed : program.WellFormed) {rule : Rule}
    (accepted : program.addRule rule = .ok later) : later.WellFormed := by
  simp only [Program.addRule, bind, Except.bind] at accepted
  split at accepted
  · cases accepted
  · next usedHead =>
      split at accepted
      · cases accepted
      · next usedBody =>
          have uses := uses_of_checkBody usedBody
          cases accepted
          refine { wellFormed with heads := ?_, bodies := ?_ }
          · intro other member
            rcases List.mem_append.mp member with before | here
            · exact wellFormed.heads other before
            · obtain rfl := List.mem_singleton.mp here
              exact uses_of_checkUse usedHead
          · intro other member
            rcases List.mem_append.mp member with before | here
            · exact wellFormed.bodies other before
            · obtain rfl := List.mem_singleton.mp here
              exact uses

theorem WellFormed.setQuery (wellFormed : program.WellFormed) {query : Atom}
    (accepted : program.setQuery query = .ok later) : later.WellFormed := by
  simp only [Program.setQuery, bind, Except.bind] at accepted
  split at accepted
  · cases accepted
  · cases accepted
    exact { wellFormed with }

theorem Built.wellFormed (built : program.Built) : program.WellFormed := by
  induction built with
  | empty => exact wellFormed_empty
  | declare _ accepted ih => exact ih.declare accepted
  | addFact _ accepted ih => exact ih.addFact accepted
  | addRule _ accepted ih => exact ih.addRule accepted
  | setQuery _ accepted ih => exact ih.setQuery accepted

theorem mem_ruleSymbols {symbol : RelationSymbol} :
    symbol ∈ program.ruleSymbols ↔ symbol ∈ program.relations ∧
      ∃ rule ∈ program.rules, rule.head.symbol = symbol := by
  simp [ruleSymbols]

end Program

/-! ## A sample program -/

namespace Sample

/-- The relations of the sample: the edges of a graph, its paths, the nodes on paths, wrapped by a
function, and the pairs of nodes that no path joins. -/
def edge : RelationSymbol := ⟨"edge", 2⟩

@[inherit_doc edge]
def path : RelationSymbol := ⟨"path", 2⟩

@[inherit_doc edge]
def wrapped : RelationSymbol := ⟨"wrapped", 1⟩

@[inherit_doc edge]
def apart : RelationSymbol := ⟨"apart", 2⟩

/-- A function that puts a constructor around its arguments. -/
def wrap : Function where
  apply store args :=
    let (id, store) := store.intern (.ctor "wrap" args)
    (.ok id, store)
  extends_apply store args := store.extends_intern (.ctor "wrap" args)

def functions : Registry where
  entries := [("wrap", .native wrap)]

def meaning : Interpretation := fun name values =>
  if name = "wrap" then some (.ctor "wrap" values) else none

theorem computes : functions.Computes meaning := by
  intro name registered found
  by_cases isWrap : "wrap" = name
  · subst isWrap
    obtain rfl : Registered.native wrap = registered := by simpa [functions, Registry.find?] using found
    intro store args values distinct denotes
    refine ⟨distinct.intern _, fun id outcome room => ⟨.ctor "wrap" values, by simp [meaning], ?_⟩⟩
    obtain rfl : (store.intern (.ctor "wrap" args)).1 = id := Except.ok.inj outcome
    exact TermStore.denotes_intern_ctor denotes room
  · simp [functions, Registry.find?, isWrap] at found

def atom (symbol : RelationSymbol) (args : List Term) (negated : Bool := false) : Atom where
  symbol := symbol
  args := args
  negated := negated

/-- An edge of the graph. -/
def fact (source target : Int64) : Fact where
  symbol := edge
  args := [.int source, .int target]

def rules : List Rule := [
  { head := atom path [.var "X", .var "Y"]
    body := [.predicate (atom edge [.var "X", .var "Y"])] },
  { head := atom path [.var "X", .var "Z"]
    body := [.predicate (atom path [.var "X", .var "Y"]),
      .predicate (atom edge [.var "Y", .var "Z"])] },
  { head := atom wrapped [.call "wrap" [.var "X"]]
    body := [.predicate (atom path [.var "X", .var "Y"])] },
  { head := atom apart [.var "X", .var "Y"]
    body := [.predicate (atom edge [.var "X", .var "V"]),
      .predicate (atom edge [.var "Y", .var "W"]),
      .predicate (atom path [.var "X", .var "Y"] true)] }]

/-- A graph with two edges, and the rules about its paths. -/
def program : Program where
  relations := [edge, path, wrapped, apart]
  facts := [fact 1 2, fact 2 3]
  rules := rules

theorem built : program.Built := by
  have first : Program.Built { relations := [edge] } :=
    .declare .empty (show Program.declare {} "edge" 2 = .ok _ from rfl)
  have second : Program.Built { relations := [edge, path] } :=
    .declare first (show Program.declare _ "path" 2 = .ok _ from rfl)
  have third : Program.Built { relations := [edge, path, wrapped] } :=
    .declare second (show Program.declare _ "wrapped" 1 = .ok _ from rfl)
  have declared : Program.Built { relations := [edge, path, wrapped, apart] } :=
    .declare third (show Program.declare _ "apart" 2 = .ok _ from rfl)
  have one : Program.Built { program with facts := [fact 1 2], rules := [] } :=
    .addFact declared (show Program.addFact _ (fact 1 2) = .ok _ from rfl)
  have stated : Program.Built { program with rules := [] } :=
    .addFact one (show Program.addFact _ (fact 2 3) = .ok _ from rfl)
  have ruled : ∀ before rule after, rules = before ++ rule :: after →
      Program.Built { program with rules := before } →
        Program.addRule { program with rules := before } rule =
            .ok { program with rules := before ++ [rule] } →
          Program.Built { program with rules := before ++ [rule] } :=
    fun _ _ _ _ built accepted => .addRule built accepted
  have withOne := ruled [] _ _ rfl stated rfl
  have withTwo := ruled _ _ _ rfl withOne rfl
  have withThree := ruled _ _ _ rfl withTwo rfl
  exact ruled _ _ _ rfl withThree rfl

end Sample

end Datalog
