import Datalog.Proofs.Source.Term

/-!
# Program descriptions as JSON and back

A description is read back from what is written for it if that nests no more than a text may.  A
description that was itself read from a text nests at most one array more than that.
-/

namespace Datalog

namespace Source

open Json

/-! ## Lists -/

section Lists

variable {α : Type} {read : Reading → Except Fault α} {write : α → Json} {room : Nat}

theorem readEach_map
    (reads : ∀ value, read (Reading.ofJson (write value)) = within (write value).depth room value)
    (values : List α) :
    readEach read (Items.ofJson (values.map write)) =
      within (depthItems (values.map write)) room values := by
  induction values with
  | nil => exact (within_of_le (Nat.zero_le room) []).symm
  | cons value values ih =>
      simp only [List.map_cons, Items.ofJson, readEach, reads, ih, within, depthItems, Nat.max_le]
      by_cases fits : (write value).depth ≤ room <;>
        by_cases others : depthItems (values.map write) ≤ room <;>
          simp [fits, others, bind, Except.bind]

theorem readList_map
    (reads : ∀ value, read (Reading.ofJson (write value)) = within (write value).depth room value)
    (values : List α) :
    readList read (Reading.ofJson (.arr (values.map write))) =
      within (depth (.arr (values.map write))) (room + 1) values := by
  simp only [Reading.ofJson, readList, readEach_map reads, within, depth, Nat.add_le_add_iff_right]

end Lists

theorem TermSource.listToJson_eq_map (terms : List TermSource) :
    TermSource.listToJson terms = terms.map TermSource.toJson := by
  induction terms with
  | nil => rfl
  | cons term terms ih => simp [TermSource.listToJson, ih]

theorem readTerms_toJson (room : Nat) (terms : List TermSource) :
    readList (TermSource.read room) (Reading.ofJson (.arr (TermSource.listToJson terms))) =
      within (depth (.arr (TermSource.listToJson terms))) (room + 1) terms := by
  rw [TermSource.listToJson_eq_map]
  exact readList_map (TermSource.read_toJson room) terms

/-! ## Atoms and conjuncts -/

theorem AtomSource.depth_toJson (atom : AtomSource) :
    atom.toJson.depth = depth (.arr (TermSource.listToJson atom.args)) + 1 := by
  cases negated : atom.negated <;> simp [AtomSource.toJson, negated, depth, depthMembers]

theorem AtomSource.read_toJson (room : Nat) (atom : AtomSource) :
    AtomSource.read room (Reading.ofJson atom.toJson) =
      within atom.toJson.depth (room + 2) atom := by
  have readArgs := readTerms_toJson room atom.args
  rw [AtomSource.depth_toJson]
  obtain ⟨rel, args, negated⟩ := atom
  simp only [within, Nat.add_le_add_iff_right, Reading.ofJson] at readArgs ⊢
  by_cases fits : depth (.arr (TermSource.listToJson args)) ≤ room + 1 <;>
    cases negated <;>
      simp [AtomSource.toJson, Reading.ofJson, Members.ofJson, AtomSource.read, readFields,
        takeOnce, readString, readBool, AtomFields.toAtom, required, readArgs, fits, bind,
        Except.bind, Except.map]

/-- Every conjunct is read as the alternative it is. -/
theorem LiteralSource.ofJson?_toJson {literal : LiteralSource}
    (fits : literal.toJson.depth ≤ nestingLimit + 2) :
    LiteralSource.ofJson? literal.toJson = some literal := by
  cases literal with
  | eq lhs rhs =>
      simp [LiteralSource.toJson, LiteralSource.ofJson?, membersOf, onlyPair,
        TermSource.ofJson?_toJson]
  | neq lhs rhs =>
      simp [LiteralSource.toJson, LiteralSource.ofJson?, membersOf, onlyPair,
        TermSource.ofJson?_toJson]
  | atom atom =>
      have noPair : ∀ key, key = "eq" ∨ key = "neq" →
          onlyPair key (membersOf atom.toJson) = none := by
        rintro key (rfl | rfl) <;> cases negated : atom.negated <;>
          simp [AtomSource.toJson, membersOf, onlyPair, negated]
      have reads := (AtomSource.read_toJson nestingLimit atom).trans (within_of_le fits atom)
      simp only [LiteralSource.toJson, LiteralSource.ofJson?, noPair "eq" (.inl rfl),
        noPair "neq" (.inr rfl), reads]

theorem LiteralSource.read_toJson {room : Nat} (bounded : room ≤ nestingLimit)
    (literal : LiteralSource) :
    LiteralSource.read room (Reading.ofJson literal.toJson) =
      within literal.toJson.depth room literal := by
  unfold LiteralSource.read
  rw [Json.toJson_ofJson]
  by_cases fits : literal.toJson.depth ≤ room
  · have found : LiteralSource.ofJson? literal.toJson = some literal :=
      LiteralSource.ofJson?_toJson (by omega)
    rw [if_pos fits, within_of_le fits]
    simp only [bind, Except.bind, found]
  · rw [if_neg fits, within_of_not_le fits]
    rfl

/-! ## Relations, rules and facts -/

theorem RelationDecl.depth_toJson (relation : RelationDecl) : relation.toJson.depth = 1 := rfl

theorem readWord64_toNat (value : UInt64) :
    readWord64 (Reading.ofJson (.int value.toNat)) = .ok value := by
  have word : (decide (0 ≤ (value.toNat : Int)) && decide ((value.toNat : Int) < UInt64.size)) = true := by
    have small := value.toNat_lt_size
    rw [Bool.and_eq_true, decide_eq_true_eq, decide_eq_true_eq]
    omega
  rw [Reading.ofJson, readWord64, if_pos word, Int.toNat_natCast, UInt64.ofNat_toNat]

-- `written` stands for the number, which is not to be computed with
theorem RelationDecl.read_members {name : String} {arity : UInt64} {written : Reading}
    (readArity : readWord64 written = .ok arity) :
    RelationDecl.read
        (.obj (.more (.ok "name") (.ok ()) (Reading.ofJson (.str name))
          (.more (.ok "arity") (.ok ()) written .closed))) = .ok { name, arity } := by
  simp [Reading.ofJson, RelationDecl.read, readFields, takeOnce, readString, readArity, required,
    bind, Except.bind, Except.map]

theorem RelationDecl.read_toJson {room : Nat} (roomy : 1 ≤ room) (relation : RelationDecl) :
    RelationDecl.read (Reading.ofJson relation.toJson) =
      within relation.toJson.depth room relation := by
  rw [RelationDecl.depth_toJson, within_of_le roomy]
  exact RelationDecl.read_members (readWord64_toNat relation.arity)

theorem RuleSource.depth_toJson (rule : RuleSource) :
    rule.toJson.depth =
      max rule.head.toJson.depth (depth (.arr (rule.body.map LiteralSource.toJson))) + 1 := by
  simp [RuleSource.toJson, depth, depthMembers]

theorem RuleSource.read_toJson {room : Nat} (roomy : 2 ≤ room) (bounded : room ≤ nestingLimit)
    (rule : RuleSource) :
    RuleSource.read room (Reading.ofJson rule.toJson) =
      within rule.toJson.depth (room + 1) rule := by
  obtain ⟨room, rfl⟩ := Nat.exists_eq_add_of_le' roomy
  have readHead := AtomSource.read_toJson room rule.head
  have bodyBounded : room + 1 ≤ nestingLimit := by omega
  have readBody := readList_map (LiteralSource.read_toJson bodyBounded) rule.body
  rw [RuleSource.depth_toJson]
  obtain ⟨head, body⟩ := rule
  simp only [within, Nat.add_le_add_iff_right, Nat.max_le] at readHead readBody ⊢
  rw [Reading.ofJson] at readBody
  by_cases headFits : head.toJson.depth ≤ room + 2 <;>
    by_cases bodyFits : depth (.arr (body.map LiteralSource.toJson)) ≤ room + 2 <;>
    simp [RuleSource.toJson, Reading.ofJson, Members.ofJson, RuleSource.read, readFields, takeOnce,
      required, readHead, readBody, headFits, bodyFits, bind, Except.bind, Except.map]

theorem insertSorted_append {α : Type} {entries : List (String × α)} {name : String} {value : α}
    (above : ∀ entry ∈ entries, entry.1 < name) :
    insertSorted name value entries = entries ++ [(name, value)] := by
  induction entries with
  | nil => rfl
  | cons head entries ih =>
      obtain ⟨first, others⟩ := List.forall_mem_cons.mp above
      rw [insertSorted, if_neg (Std.not_lt.mpr (Std.le_of_lt first)),
        if_neg (Std.ne_of_lt first).symm, ih others]
      rfl

theorem readFacts_toJson (room : Nat) (facts : List (List TermSource)) :
    readList (readList (TermSource.read room)) (Reading.ofJson (factsToJson facts)) =
      within (factsToJson facts).depth (room + 2) facts :=
  readList_map (readTerms_toJson room) facts

/-- The facts of relations that follow the known ones are added at the end. -/
theorem readFactMembers_map (room : Nat) (rest : List (String × List (List TermSource)))
    (table : FactTable (List (List TermSource))) (sorted : IsSorted (table.entries ++ rest)) :
    readFactMembers room table
        (Members.ofJson (rest.map fun entry => (entry.1, factsToJson entry.2))) =
      within (depthMembers (rest.map fun entry => (entry.1, factsToJson entry.2))) (room + 2)
        ⟨table.entries ++ rest, sorted⟩ := by
  induction rest generalizing table with
  | nil =>
      simp only [List.map_nil, Members.ofJson, readFactMembers, depthMembers, List.append_nil,
        Nat.zero_le, within_of_le]
  | cons entry rest ih =>
      obtain ⟨name, facts⟩ := entry
      have above : ∀ entry ∈ table.entries, entry.1 < name := fun entry listed =>
        (List.pairwise_append.mp sorted).2.2 entry listed (name, facts) List.mem_cons_self
      have added : (table.insert name facts).entries ++ rest =
          table.entries ++ (name, facts) :: rest := by
        simp [FactTable.insert, insertSorted_append above]
      have others := ih (table.insert name facts) (added ▸ sorted)
      simp only [List.map_cons, Members.ofJson, readFactMembers, readFacts_toJson, depthMembers]
      simp only [within, Nat.max_le] at others ⊢
      by_cases fits : (factsToJson facts).depth ≤ room + 2 <;>
        simp [fits, others, added, bind, Except.bind]

/-! ## Programs -/

def factTableToJson (facts : FactTable (List (List TermSource))) : Json :=
  .obj (facts.entries.map fun entry => (entry.1, factsToJson entry.2))

theorem readFactTable_toJson {room : Nat} (roomy : 3 ≤ room)
    (facts : FactTable (List (List TermSource))) :
    readFacts room (Reading.ofJson (factTableToJson facts)) =
      within (factTableToJson facts).depth room facts := by
  obtain ⟨room, rfl⟩ := Nat.exists_eq_add_of_le' roomy
  have reads := readFactMembers_map room facts.entries {} facts.sorted
  simp only [within, factTableToJson, Reading.ofJson, readFacts, Nat.add_sub_cancel, depth,
    Nat.add_le_add_iff_right] at reads ⊢
  exact reads

def queryToJson (query : Option AtomSource) : Json :=
  (query.map AtomSource.toJson).getD .null

theorem readQuery_toJson {room : Nat} (roomy : 2 ≤ room) (query : Option AtomSource) :
    readQuery room (Reading.ofJson (queryToJson query)) =
      within (queryToJson query).depth room query := by
  obtain ⟨room, rfl⟩ := Nat.exists_eq_add_of_le' roomy
  cases query with
  | none => exact (within_of_le (Nat.zero_le _) none).symm
  | some atom =>
      have reads := AtomSource.read_toJson room atom
      simp only [queryToJson, Option.map_some, Option.getD_some]
      rw [readQuery, Nat.add_sub_cancel, reads]
      · by_cases fits : atom.toJson.depth ≤ room + 2 <;> simp [fits, Except.map]
      · intro same
        simp [AtomSource.toJson, Reading.ofJson] at same

theorem ProgramSource.toJson_eq (program : ProgramSource) :
    program.toJson = .obj
      [ ("relations", .arr (program.relations.map RelationDecl.toJson)),
        ("facts", factTableToJson program.facts),
        ("rules", .arr (program.rules.map RuleSource.toJson)),
        ("query", queryToJson program.query) ] := rfl

theorem ProgramSource.depth_toJson (program : ProgramSource) :
    program.toJson.depth =
      max (depth (.arr (program.relations.map RelationDecl.toJson)))
        (max (factTableToJson program.facts).depth
          (max (depth (.arr (program.rules.map RuleSource.toJson)))
            (queryToJson program.query).depth)) + 1 := by
  simp [ProgramSource.toJson_eq, depth, depthMembers]

theorem depth_relations_le (relations : List RelationDecl) :
    depth (.arr (relations.map RelationDecl.toJson)) ≤ 2 := by
  apply Nat.succ_le_succ
  induction relations with
  | nil => exact Nat.zero_le 1
  | cons relation relations ih => exact Nat.max_le.mpr ⟨Nat.le_refl 1, ih⟩

/-- A program is read back if there is room for what it nests. -/
theorem ProgramSource.read_toJson {room : Nat} (roomy : 4 ≤ room) (bounded : room ≤ nestingLimit)
    (program : ProgramSource) :
    ProgramSource.read room (Reading.ofJson program.toJson) =
      within program.toJson.depth (room + 1) program := by
  obtain ⟨room, rfl⟩ := Nat.exists_eq_add_of_le' roomy
  obtain ⟨relations, facts, rules, query⟩ := program
  have rulesBounded : room + 2 ≤ nestingLimit := by omega
  have readRelations := readList_map
    (RelationDecl.read_toJson (Nat.le_add_left 1 (room + 2))) relations
  have readTable := readFactTable_toJson (Nat.le_add_left 3 (room + 1)) facts
  have readRules := readList_map
    (RuleSource.read_toJson (Nat.le_add_left 2 room) rulesBounded) rules
  have readGoal := readQuery_toJson (Nat.le_add_left 2 (room + 2)) query
  have relationsFit : depth (.arr (relations.map RelationDecl.toJson)) ≤ room + 4 :=
    Nat.le_trans (depth_relations_le relations) (Nat.le_add_left 2 (room + 2))
  rw [within_of_le relationsFit] at readRelations
  rw [ProgramSource.depth_toJson, ProgramSource.toJson_eq]
  simp only [within, Nat.add_le_add_iff_right, Nat.max_le, relationsFit, true_and]
    at readTable readRules readGoal ⊢
  rw [Reading.ofJson] at readRelations readRules
  by_cases factsFit : (factTableToJson facts).depth ≤ room + 4 <;>
    by_cases rulesFit : depth (.arr (rules.map RuleSource.toJson)) ≤ room + 4 <;>
      by_cases queryFits : (queryToJson query).depth ≤ room + 4 <;>
        simp [Reading.ofJson, Members.ofJson, ProgramSource.read, readFields, takeOnce, required,
          readRelations, readTable, readRules, readGoal, factsFit, rulesFit, queryFits, bind,
          Except.bind, Except.map]

/-! ## Texts -/

theorem areWhole_map {α : Type} {write : α → Json} (whole : ∀ value, isWhole (write value) = true)
    (values : List α) : areWhole (values.map write) = true := by
  induction values with
  | nil => rfl
  | cons value values ih => simp [areWhole, whole, ih]

theorem AtomSource.isWhole_toJson (atom : AtomSource) : isWhole atom.toJson = true := by
  cases negated : atom.negated <;>
    simp [AtomSource.toJson, negated, isWhole, membersWhole, TermSource.areWhole_listToJson]

theorem LiteralSource.isWhole_toJson (literal : LiteralSource) : isWhole literal.toJson = true := by
  cases literal with
  | atom atom => exact AtomSource.isWhole_toJson atom
  | _ => simp [LiteralSource.toJson, isWhole, membersWhole, areWhole, TermSource.isWhole_toJson]

theorem RuleSource.isWhole_toJson (rule : RuleSource) : isWhole rule.toJson = true := by
  simp [RuleSource.toJson, isWhole, membersWhole, AtomSource.isWhole_toJson,
    areWhole_map LiteralSource.isWhole_toJson]

theorem isWhole_factsToJson (facts : List (List TermSource)) :
    isWhole (factsToJson facts) = true :=
  areWhole_map TermSource.areWhole_listToJson facts

theorem isWhole_factTableToJson (table : FactTable (List (List TermSource))) :
    isWhole (factTableToJson table) = true := by
  rw [factTableToJson, isWhole]
  induction table.entries with
  | nil => rfl
  | cons entry entries ih => simp [membersWhole, isWhole_factsToJson, ih]

theorem isWhole_queryToJson (query : Option AtomSource) : isWhole (queryToJson query) = true := by
  cases query with
  | none => rfl
  | some atom => exact AtomSource.isWhole_toJson atom

theorem ProgramSource.isWhole_toJson (program : ProgramSource) :
    isWhole program.toJson = true := by
  have relations : areWhole (program.relations.map RelationDecl.toJson) = true :=
    areWhole_map (fun relation => by
      simp [RelationDecl.toJson, isWhole, membersWhole, isExact_toNat]) program.relations
  have rules := areWhole_map RuleSource.isWhole_toJson program.rules
  simp [ProgramSource.toJson_eq, isWhole, membersWhole, relations, rules, isWhole_factTableToJson,
    isWhole_queryToJson]

/-- What is made of the text of a program depends on how deep it nests, and on nothing else. -/
theorem ProgramSource.ofString_toJson (program : ProgramSource) :
    ProgramSource.ofString (render program.toJson) =
      within program.toJson.depth nestingLimit program := by
  have reads : ProgramSource.read (nestingLimit - 1) (Reading.ofJson program.toJson) =
      within program.toJson.depth nestingLimit program :=
    ProgramSource.read_toJson (by decide) (Nat.sub_le _ 1) program
  simp only [ProgramSource.ofString, ofString_render _ (ProgramSource.isWhole_toJson program), reads]
  by_cases fits : program.toJson.depth ≤ nestingLimit
  · rw [within_of_le fits]
    rfl
  · rw [within_of_not_le fits]
    rfl

/-- A program that nests no more than a text may is read back from its text. -/
theorem ofString_render_toJson {program : ProgramSource}
    (fits : program.toJson.depth ≤ nestingLimit) :
    ProgramSource.ofString (render program.toJson) = .ok program :=
  (ProgramSource.ofString_toJson program).trans (within_of_le fits program)

def FactTable.singleton {α : Type} (name : String) (value : α) : FactTable α where
  entries := [(name, value)]
  sorted := List.pairwise_singleton _ _

/-- Every kind of term and conjunct, with names, strings and empty lists that look alike. -/
def Sample.program : ProgramSource where
  relations :=
    [{ name := "r", arity := .ofNat 2 }, { name := "", arity := .ofNat 18446744073709551615 }]
  facts := .singleton "r"
    [[.int .minValue, .bool true], [.str "ctor", .ctor "str" []], []]
  rules :=
    [ { head := { rel := "r", args := [.name "X", .call "ctor" [.name "_", .str "X"]] }
        body :=
          [ .atom { rel := "eq", args := [.name "X", .name ""], negated := true },
            .eq (.name "X") (.ctor "args" [.ctor "call" [.int (.ofNat 7)], .str "\"\n"]),
            .neq (.call "neq" []) (.str ""),
            .atom { rel := "r" } ] },
      { head := { rel := "" } } ]
  query := some { rel := "r", args := [.name "X", .name "Y"] }

theorem ofString_render_toJson_sample :
    Sample.program.toJson.depth ≤ nestingLimit ∧
      ProgramSource.ofString (render Sample.program.toJson) = .ok Sample.program :=
  ⟨by decide, ofString_render_toJson (by decide)⟩

end Source

end Datalog
