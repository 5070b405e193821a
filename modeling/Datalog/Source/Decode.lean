import Datalog.Json.Reading
import Datalog.MachineInt
import Datalog.Source.Basic

/-!
# Program descriptions from JSON

A description is read from the front, and the first problem decides why it is refused.  Terms and
the conjuncts of a body are the exception: each is read completely before its shape is looked at.

Every record may be written as an object or as an array of its fields in order.  In an object a
repeated field is refused; unknown fields are skipped, except in the program itself, where they are
refused.
-/

namespace Datalog
namespace Source

open Json

/-! ## Shapes -/

/-- What is wrong with a value that stands where another kind of value is required. -/
def mismatch : Reading → Fault
  | .null | .bool _ | .arr _ | .obj _ => .misshapen
  | .number (.error fault) _ | .str (.error fault) _ => fault
  | .number (.ok _) _ | .str (.ok _) _ => .misshapen
  | .broken fault => fault

def readString : Reading → Except Fault String
  | .str value _ => value
  | other => .error (mismatch other)

def readBool : Reading → Except Fault Bool
  | .bool value => .ok value
  | other => .error (mismatch other)

/-- Read an unsigned machine word. -/
def readWord64 : Reading → Except Fault UInt64
  | .number (.ok (.int value)) _ =>
      if 0 ≤ value && value < UInt64.size then .ok (UInt64.ofNat value.toNat)
      else .error .misshapen
  | other => .error (mismatch other)

/-- Read the items of an array. -/
def readEach {α : Type} (read : Reading → Except Fault α) : Items → Except Fault (List α)
  | .closed => .ok []
  | .more item rest => do
      let item ← read item
      let rest ← readEach read rest
      .ok (item :: rest)
  | .broken fault => .error fault

def readList {α : Type} (read : Reading → Except Fault α) : Reading → Except Fault (List α)
  | .arr items => readEach read items
  | other => .error (mismatch other)

/-- Read the next field of a record that is written as an array, if there is one. -/
def nextField {α : Type} (read : Reading → Except Fault α) :
    Items → Except Fault (Option α × Items)
  | .closed => .ok (none, .closed)
  | .more item rest => do
      let value ← read item
      .ok (some value, rest)
  | .broken fault => .error fault

/-- Read the next field of a record that is written as an array. -/
def requiredField {α : Type} (read : Reading → Except Fault α) (items : Items) :
    Except Fault (α × Items) := do
  match ← nextField read items with
  | (some value, rest) => .ok (value, rest)
  | (none, _) => .error .misshapen

/-- Require that a record written as an array ends after its last field. -/
def endFields : Items → Except Fault Unit
  | .closed => .ok ()
  | .more _ _ => .error .malformed
  | .broken fault => .error fault

/-- What is done with the value of a member, once its key is known. -/
inductive FieldAction (σ : Type) where
  | read (update : Reading → Except Fault σ)
  | ignore
  | refuse

/-- Take a field that may occur only once. -/
def takeOnce {α σ : Type} (current : Option α) (read : Reading → Except Fault α)
    (update : α → σ) : FieldAction σ :=
  if current.isSome then .refuse else .read fun value => (read value).map update

/-- Read the members of an object one after another. -/
def readFields {σ : Type} (action : σ → String → FieldAction σ) :
    σ → Members → Except Fault σ
  | state, .closed => .ok state
  | state, .more key _ value rest => do
      let key ← key
      match action state key with
      | .read update => do
          let state ← update value
          readFields action state rest
      | .ignore => do
          value.skip
          readFields action state rest
      | .refuse => .error .misshapen
  | _, .broken fault => .error fault

/-- A field that must be present. -/
def required {α : Type} : Option α → Except Fault α
  | some value => .ok value
  | none => .error .misshapen

/-! ## Terms -/

/-- The string that the only member with a given key holds. -/
def onlyString (key : String) (members : List (String × Json)) : Option String :=
  match members.filter (·.1 = key) with
  | [(_, .str value)] => some value
  | _ => none

/-- The arguments that the only list of arguments holds; there are none without such a list. -/
def onlyArgs : List (Option (List TermSource)) → Option (List TermSource)
  | [] => some []
  | [args] => args
  | _ => none

mutual

/-- The term that a value describes: of the alternatives, the first that fits. -/
def TermSource.ofJson? : Json → Option TermSource
  | .null | .real _ | .arr _ => none
  | .bool value => some (.bool value)
  | .int value => (MachineInt.ofInt? value).map .int
  | .str bare => some (.name bare)
  | .obj members =>
      match onlyString "str" members with
      | some value => some (.str value)
      | none =>
          let args := onlyArgs (TermSource.argLists members)
          match onlyString "ctor" members, args with
          | some constructor, some args => some (.ctor constructor args)
          | _, _ =>
              match onlyString "call" members, args with
              | some function, some args => some (.call function args)
              | _, _ => none

def TermSource.listOfJson? : List Json → Option (List TermSource)
  | [] => some []
  | item :: items =>
      match TermSource.ofJson? item, TermSource.listOfJson? items with
      | some term, some terms => some (term :: terms)
      | _, _ => none

/-- What each member with the key `args` holds, if it is a list of terms. -/
def TermSource.argLists : List (String × Json) → List (Option (List TermSource))
  | [] => []
  | (key, .arr items) :: members =>
      if key = "args" then
        TermSource.listOfJson? items :: TermSource.argLists members
      else
        TermSource.argLists members
  | (key, _) :: members =>
      if key = "args" then none :: TermSource.argLists members else TermSource.argLists members

end

/-- Read a term; `room` is the nesting that is still allowed. -/
def TermSource.read (room : Nat) (reading : Reading) : Except Fault TermSource := do
  let value ← reading.toJson room
  match TermSource.ofJson? value with
  | some term => .ok term
  | none => .error .misshapen

/-! ## Atoms and literals -/

/-- The fields of an atom that have been read. -/
structure AtomFields where
  rel : Option String := none
  args : Option (List TermSource) := none
  negated : Option Bool := none

def AtomFields.toAtom (fields : AtomFields) : Except Fault AtomSource := do
  let rel ← required fields.rel
  .ok { rel, args := fields.args.getD [], negated := fields.negated.getD false }

/-- Read an atom; `room` is the nesting allowed within a term. -/
def AtomSource.read (room : Nat) : Reading → Except Fault AtomSource
  | .obj members => do
      let action (fields : AtomFields) (key : String) : FieldAction AtomFields :=
        if key = "rel" then takeOnce fields.rel readString fun rel => { fields with rel }
        else if key = "args" then
          takeOnce fields.args (readList (TermSource.read room)) fun args => { fields with args }
        else if key = "negated" then
          takeOnce fields.negated readBool fun negated => { fields with negated }
        else .ignore
      let fields ← readFields action {} members
      fields.toAtom
  | .arr items => do
      let (rel, items) ← requiredField readString items
      let (args, items) ← nextField (readList (TermSource.read room)) items
      let (negated, items) ← nextField readBool items
      endFields items
      .ok { rel, args := args.getD [], negated := negated.getD false }
  | other => .error (mismatch other)

/-- The two terms of the only member with a given key. -/
def onlyPair (key : String) (members : List (String × Json)) : Option (TermSource × TermSource) :=
  match members.filter (·.1 = key) with
  | [(_, .arr [lhs, rhs])] =>
      match TermSource.ofJson? lhs, TermSource.ofJson? rhs with
      | some lhs, some rhs => some (lhs, rhs)
      | _, _ => none
  | _ => none

/-- The members of a value, if it is an object. -/
def membersOf : Json → List (String × Json)
  | .obj members => members
  | _ => []

/-- The conjunct that a value describes: of the alternatives, the first that fits. -/
def LiteralSource.ofJson? (value : Json) : Option LiteralSource :=
  match onlyPair "eq" (membersOf value) with
  | some (lhs, rhs) => some (.eq lhs rhs)
  | none =>
      match onlyPair "neq" (membersOf value) with
      | some (lhs, rhs) => some (.neq lhs rhs)
      | none =>
          match AtomSource.read nestingLimit (Reading.ofJson value) with
          | .ok found => some (.atom found)
          | .error _ => none

/-- Read a conjunct; `room` is the nesting that is still allowed. -/
def LiteralSource.read (room : Nat) (reading : Reading) : Except Fault LiteralSource := do
  let value ← reading.toJson room
  match LiteralSource.ofJson? value with
  | some literal => .ok literal
  | none => .error .misshapen

/-! ## Relations, rules and programs -/

def RelationDecl.read : Reading → Except Fault RelationDecl
  | .obj members => do
      let action (fields : Option String × Option UInt64) (key : String) :
          FieldAction (Option String × Option UInt64) :=
        if key = "name" then takeOnce fields.1 readString fun name => (some name, fields.2)
        else if key = "arity" then takeOnce fields.2 readWord64 fun arity => (fields.1, some arity)
        else .ignore
      let fields ← readFields action (none, none) members
      let name ← required fields.1
      let arity ← required fields.2
      .ok { name, arity }
  | .arr items => do
      let (name, items) ← requiredField readString items
      let (arity, items) ← requiredField readWord64 items
      endFields items
      .ok { name, arity }
  | other => .error (mismatch other)

/-- Read a rule; `room` is the nesting that is allowed inside it. -/
def RuleSource.read (room : Nat) : Reading → Except Fault RuleSource
  | .obj members => do
      let action (fields : Option AtomSource × Option (List LiteralSource)) (key : String) :
          FieldAction (Option AtomSource × Option (List LiteralSource)) :=
        if key = "head" then
          takeOnce fields.1 (AtomSource.read (room - 2)) fun head => (some head, fields.2)
        else if key = "body" then
          takeOnce fields.2 (readList (LiteralSource.read (room - 1))) fun body =>
            (fields.1, some body)
        else .ignore
      let fields ← readFields action (none, none) members
      let head ← required fields.1
      .ok { head, body := fields.2.getD [] }
  | .arr items => do
      let (head, items) ← requiredField (AtomSource.read (room - 2)) items
      let (body, items) ← nextField (readList (LiteralSource.read (room - 1))) items
      endFields items
      .ok { head, body := body.getD [] }
  | other => .error (mismatch other)

/-- Read the base facts of the remaining relations; a repeated relation replaces its facts. -/
def readFactMembers (room : Nat) (table : FactTable (List (List TermSource))) :
    Members → Except Fault (FactTable (List (List TermSource)))
  | .closed => .ok table
  | .more key _ value rest => do
      let key ← key
      let facts ← readList (readList (TermSource.read room)) value
      readFactMembers room (table.insert key facts) rest
  | .broken fault => .error fault

/-- Read the base facts of all relations. -/
def readFacts (room : Nat) : Reading → Except Fault (FactTable (List (List TermSource)))
  | .obj members => readFactMembers (room - 3) {} members
  | other => .error (mismatch other)

/-- Read an optional query. -/
def readQuery (room : Nat) : Reading → Except Fault (Option AtomSource)
  | .null => .ok none
  | other => (AtomSource.read (room - 2) other).map some

/-- The fields of a program that have been read. -/
structure ProgramFields where
  relations : Option (List RelationDecl) := none
  facts : Option (FactTable (List (List TermSource))) := none
  rules : Option (List RuleSource) := none
  query : Option (Option AtomSource) := none

/-- Read a program that may nest at most `room + 1` arrays and objects. -/
def ProgramSource.read (room : Nat) : Reading → Except Fault ProgramSource
  | .obj members => do
      let action (fields : ProgramFields) (key : String) : FieldAction ProgramFields :=
        if key = "relations" then
          takeOnce fields.relations (readList RelationDecl.read) fun relations =>
            { fields with relations }
        else if key = "facts" then
          takeOnce fields.facts (readFacts room) fun facts => { fields with facts }
        else if key = "rules" then
          takeOnce fields.rules (readList (RuleSource.read (room - 2))) fun rules =>
            { fields with rules }
        else if key = "query" then
          takeOnce fields.query (readQuery room) fun query => { fields with query := some query }
        else .refuse
      let fields ← readFields action {} members
      let relations ← required fields.relations
      .ok
        { relations
          facts := fields.facts.getD {}
          rules := fields.rules.getD []
          query := fields.query.getD none }
  | .arr items => do
      let (relations, items) ← requiredField (readList RelationDecl.read) items
      let (facts, items) ← nextField (readFacts room) items
      let (rules, items) ← nextField (readList (RuleSource.read (room - 2))) items
      let (query, items) ← nextField (readQuery room) items
      endFields items
      .ok
        { relations
          facts := facts.getD {}
          rules := rules.getD []
          query := query.getD none }
  | other => .error (mismatch other)

/-- Read a program description from a text. -/
def ProgramSource.ofString (text : String) : Except Fault ProgramSource := do
  let document := Document.ofString text
  let program ← ProgramSource.read (nestingLimit - 1) document.value
  if document.endsThere then .ok program else .error .malformed

end Source
end Datalog
