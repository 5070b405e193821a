import Datalog.Proofs.Source.Program

/-!
# Writing out a description that was read

What is left out of a text is written out: an atom, a constructor or a call without arguments is
written with an empty list of them.  A description read from a text therefore nests one array more
than a text may, at most, and it is refused if it does.
-/

namespace Datalog

namespace Json

/-! ## Parts of a reading -/

/-- Whether all items of an array that can be read have a property. -/
def Items.All (holds : Reading → Prop) : Items → Prop
  | .closed | .broken _ => True
  | .more item rest => holds item ∧ rest.All holds

/-- Whether the values of all members of an object that can be read have a property. -/
def Members.All (holds : Reading → Prop) : Members → Prop
  | .closed | .broken _ => True
  | .more _ _ value rest => holds value ∧ rest.All holds

/-- Whether the parts of a reading have a property. -/
def Reading.Nested (holds : Reading → Prop) : Reading → Prop
  | .arr items => items.All holds
  | .obj members => members.All holds
  | _ => True

theorem Items.all_isScanned : ∀ {items : Items}, items.IsScanned → items.All Reading.IsScanned
  | .closed, _ | .broken _, _ => trivial
  | .more _ _, scanned => ⟨scanned.1, Items.all_isScanned scanned.2⟩

theorem Members.all_isScanned : ∀ {members : Members},
    members.IsScanned → members.All Reading.IsScanned
  | .closed, _ | .broken _, _ => trivial
  | .more .., scanned => ⟨scanned.1, Members.all_isScanned scanned.2⟩

theorem Reading.nested_isScanned {reading : Reading} (scanned : reading.IsScanned) :
    reading.Nested Reading.IsScanned := by
  cases reading with
  | arr items => exact Items.all_isScanned scanned
  | obj members => exact Members.all_isScanned scanned
  | _ => trivial

theorem Items.All.imp {strong weak : Reading → Prop}
    (weakens : ∀ reading, strong reading → weak reading) :
    ∀ {items : Items}, items.All strong → items.All weak
  | .closed, _ | .broken _, _ => trivial
  | .more _ _, all => ⟨weakens _ all.1, Items.All.imp weakens all.2⟩

theorem Members.All.imp {strong weak : Reading → Prop}
    (weakens : ∀ reading, strong reading → weak reading) :
    ∀ {members : Members}, members.All strong → members.All weak
  | .closed, _ | .broken _, _ => trivial
  | .more .., all => ⟨weakens _ all.1, Members.All.imp weakens all.2⟩

theorem Reading.nested_of_imp {strong weak : Reading → Prop}
    (weakens : ∀ reading, strong reading → weak reading) {reading : Reading}
    (nested : reading.Nested strong) : reading.Nested weak := by
  cases reading with
  | arr items => exact Items.All.imp weakens nested
  | obj members => exact Members.All.imp weakens nested
  | _ => trivial

/-- A complete value of limited depth. -/
def Reading.IsWritten (bound : Nat) (reading : Reading) : Prop :=
  ∃ value : Json, reading = Reading.ofJson value ∧ value.depth < bound

theorem Items.all_isWritten {bound : Nat} {items : List Json} (small : depthItems items < bound) :
    (Items.ofJson items).All (Reading.IsWritten bound) := by
  induction items with
  | nil => trivial
  | cons item items ih =>
      obtain ⟨first, others⟩ := Nat.max_lt.mp small
      exact ⟨⟨item, rfl, first⟩, ih others⟩

theorem Members.all_isWritten {bound : Nat} {members : List (String × Json)}
    (small : depthMembers members < bound) :
    (Members.ofJson members).All (Reading.IsWritten bound) := by
  induction members with
  | nil => trivial
  | cons member members ih =>
      obtain ⟨first, others⟩ := Nat.max_lt.mp small
      exact ⟨⟨member.2, rfl, first⟩, ih others⟩

theorem Reading.nested_isWritten {bound : Nat} {reading : Reading}
    (written : reading.IsWritten (bound + 1)) : reading.Nested (Reading.IsWritten bound) := by
  obtain ⟨value, rfl, small⟩ := written
  cases value with
  | arr items => exact Items.all_isWritten (Nat.le_of_succ_le_succ small)
  | obj members => exact Members.all_isWritten (Nat.le_of_succ_le_succ small)
  | _ => trivial

end Json

namespace Source

open Json

/-! ## What readers keep -/

/-- Whether a reader makes of such readings only values with some property. -/
def Keeps {α : Type} (holds : Reading → Prop) (read : Reading → Except Fault α)
    (property : α → Prop) : Prop :=
  ∀ reading value, holds reading → read reading = .ok value → property value

section Readers

variable {α σ : Type} {holds : Reading → Prop} {read : Reading → Except Fault α}
  {property : α → Prop}

theorem Keeps.of_imp {weaker : Reading → Prop} (keeps : Keeps weaker read property)
    (weakens : ∀ reading, holds reading → weaker reading) : Keeps holds read property :=
  fun reading value given found => keeps reading value (weakens reading given) found

theorem keeps_true (holds : Reading → Prop) (read : Reading → Except Fault α) :
    Keeps holds read fun _ => True :=
  fun _ _ _ _ => trivial

theorem Keeps.readEach (keeps : Keeps holds read property) {items : Items}
    (given : items.All holds) {values : List α} (found : readEach read items = .ok values) :
    ∀ value ∈ values, property value := by
  fun_induction Source.readEach read items generalizing values with
  | case1 =>
      cases found
      exact fun _ listed => absurd listed List.not_mem_nil
  | case2 item rest ih =>
      obtain ⟨first, foundFirst, found⟩ := exists_of_bind_eq_ok found
      obtain ⟨others, foundOthers, found⟩ := exists_of_bind_eq_ok found
      cases found
      exact List.forall_mem_cons.mpr ⟨keeps item first given.1 foundFirst, ih given.2 foundOthers⟩
  | case3 => contradiction

theorem Keeps.readList (keeps : Keeps holds read property) :
    Keeps (Reading.Nested holds) (readList read) fun values => ∀ value ∈ values, property value := by
  intro reading values given found
  cases reading with
  | arr items => exact keeps.readEach given found
  | _ => contradiction

theorem Keeps.nextField (keeps : Keeps holds read property) {items rest : Items}
    (given : items.All holds) {value : Option α}
    (found : nextField read items = .ok (value, rest)) :
    (∀ present ∈ value, property present) ∧ rest.All holds := by
  cases items with
  | closed =>
      cases found
      exact ⟨fun _ listed => absurd listed (Option.not_mem_none _), trivial⟩
  | more item others =>
      obtain ⟨present, foundItem, found⟩ := exists_of_bind_eq_ok found
      cases found
      refine ⟨fun other same => ?_, given.2⟩
      cases same
      exact keeps item present given.1 foundItem
  | broken fault => contradiction

theorem Keeps.requiredField (keeps : Keeps holds read property) {items rest : Items}
    (given : items.All holds) {value : α}
    (found : requiredField read items = .ok (value, rest)) :
    property value ∧ rest.All holds := by
  obtain ⟨⟨present, others⟩, foundNext, found⟩ := exists_of_bind_eq_ok found
  have kept := keeps.nextField given foundNext
  cases present with
  | none => contradiction
  | some present =>
      cases found
      exact ⟨kept.1 value rfl, kept.2⟩

/-- An action with a field keeps an invariant if reading it does. -/
def FieldAction.Keeps (holds : Reading → Prop) (invariant : σ → Prop) (action : FieldAction σ) :
    Prop :=
  ∀ update, action = .read update → Source.Keeps holds update invariant

theorem Keeps.takeOnce (keeps : Keeps holds read property) {invariant : σ → Prop} {update : α → σ}
    (updates : ∀ value, property value → invariant (update value)) (current : Option α) :
    (takeOnce current read update).Keeps holds invariant := by
  intro reader chosen reading state given found
  unfold Source.takeOnce at chosen
  split at chosen
  · contradiction
  · cases chosen
    cases value : read reading with
    | error fault => simp [value, Except.map] at found
    | ok value =>
        simp only [value, Except.map, Except.ok.injEq] at found
        rw [← found]
        exact updates _ (keeps reading _ given value)

theorem FieldAction.keeps_ignore (holds : Reading → Prop) (invariant : σ → Prop) :
    FieldAction.ignore.Keeps holds invariant :=
  fun _ chosen => by contradiction

theorem FieldAction.keeps_refuse (holds : Reading → Prop) (invariant : σ → Prop) :
    FieldAction.refuse.Keeps holds invariant :=
  fun _ chosen => by contradiction

/-- What every action keeps holds of all fields of an object. -/
theorem invariant_of_readFields {action : σ → String → FieldAction σ} {invariant : σ → Prop}
    (keeps : ∀ state key, invariant state → (action state key).Keeps holds invariant) {state : σ}
    {members : Members} (given : members.All holds) (before : invariant state) {last : σ}
    (found : readFields action state members = .ok last) : invariant last := by
  fun_induction Source.readFields action state members with
  | case1 state =>
      cases found
      exact before
  | case2 state key keySkipped value rest ih ih' =>
      obtain ⟨name, -, found⟩ := exists_of_bind_eq_ok found
      have kept := keeps state name before
      cases chosen : action state name with
      | read update =>
          rw [chosen] at found kept
          obtain ⟨next, updated, found⟩ := exists_of_bind_eq_ok found
          exact ih next given.2 (kept update rfl value next given.1 updated) found
      | ignore =>
          rw [chosen] at found
          obtain ⟨_, -, found⟩ := exists_of_bind_eq_ok found
          exact ih' given.2 before found
      | refuse =>
          rw [chosen] at found
          contradiction
  | case3 => contradiction

end Readers

/-! ## Terms, atoms and conjuncts -/

theorem depthItems_map_le {α : Type} {write : α → Json} {bound : Nat} {values : List α}
    (small : ∀ value ∈ values, (write value).depth ≤ bound) :
    depthItems (values.map write) ≤ bound := by
  induction values with
  | nil => exact Nat.zero_le bound
  | cons value values ih =>
      obtain ⟨first, others⟩ := List.forall_mem_cons.mp small
      exact Nat.max_le.mpr ⟨first, ih others⟩

theorem TermSource.keeps_isScanned (room : Nat) :
    Keeps Reading.IsScanned (TermSource.read room) fun term => term.toJson.depth ≤ room + 1 := by
  intro reading term scanned found
  obtain ⟨value, taken, found⟩ := exists_of_bind_eq_ok found
  have small := depth_le_of_toJson reading room value scanned taken
  split at found
  · next described =>
      cases found
      exact Nat.le_trans (TermSource.depth_toJson_le value term described) (Nat.succ_le_succ small)
  · contradiction

theorem TermSource.keeps_isWritten (room bound : Nat) :
    Keeps (Reading.IsWritten bound) (TermSource.read room) fun term =>
      term.toJson.depth ≤ bound := by
  rintro reading term ⟨value, rfl, small⟩ found
  obtain ⟨taken, foundTaken, found⟩ := exists_of_bind_eq_ok found
  rw [Json.toJson_ofJson] at foundTaken
  split at foundTaken
  · cases foundTaken
    split at found
    · next described =>
        cases found
        exact Nat.le_trans (TermSource.depth_toJson_le value term described) small
    · contradiction
  · contradiction

section Nesting

variable {holds : Reading → Prop} {room bound : Nat}

/-- Whether the arguments that have been read nest at most so much. -/
def AtomFields.Within (bound : Nat) (fields : AtomFields) : Prop :=
  ∀ args ∈ fields.args, ∀ term ∈ args, term.toJson.depth ≤ bound

theorem AtomSource.depth_le_of_within {fields : AtomFields} (within : fields.Within bound)
    (rel : String) (negated : Bool) :
    (AtomSource.toJson { rel, args := fields.args.getD [], negated }).depth ≤ bound + 2 := by
  rw [AtomSource.depth_toJson, TermSource.listToJson_eq_map]
  refine Nat.add_le_add_right (depthItems_map_le ?_) 2
  cases read : fields.args with
  | none => simp
  | some args => exact within args read

/-- An atom is written two levels around its terms. -/
theorem AtomSource.keeps
    (terms : Keeps holds (TermSource.read room) fun term => term.toJson.depth ≤ bound) :
    Keeps (Reading.Nested (Reading.Nested holds)) (AtomSource.read room) fun atom =>
      atom.toJson.depth ≤ bound + 2 := by
  intro reading atom given found
  cases reading with
  | obj members =>
      obtain ⟨fields, foundFields, found⟩ := exists_of_bind_eq_ok found
      have within : fields.Within bound := by
        refine invariant_of_readFields (fun state key before => ?_) given ?_ foundFields
        · split
          · refine (keeps_true _ _).takeOnce ?_ _
            exact fun _ _ => before
          · split
            · refine terms.readList.takeOnce ?_ _
              intro args small others same
              cases same
              exact small
            · split
              · refine (keeps_true _ _).takeOnce ?_ _
                exact fun _ _ => before
              · exact FieldAction.keeps_ignore _ _
        · intro args same
          contradiction
      obtain ⟨rel, -, found⟩ := exists_of_bind_eq_ok found
      cases found
      exact AtomSource.depth_le_of_within within ..
  | arr items =>
      obtain ⟨⟨rel, items⟩, foundRel, found⟩ := exists_of_bind_eq_ok found
      obtain ⟨⟨args, items'⟩, foundArgs, found⟩ := exists_of_bind_eq_ok found
      obtain ⟨⟨negated, items''⟩, foundNegated, found⟩ := exists_of_bind_eq_ok found
      obtain ⟨_, ended, found⟩ := exists_of_bind_eq_ok found
      cases found
      have given := ((keeps_true _ readString).requiredField given foundRel).2
      have within : ({ args } : AtomFields).Within bound :=
        (terms.readList.nextField given foundArgs).1
      exact AtomSource.depth_le_of_within within ..
  | _ => contradiction

end Nesting

theorem AtomSource.depth_le_of_ofJson {room : Nat} {value : Json} {atom : AtomSource}
    (found : AtomSource.read room (Reading.ofJson value) = .ok atom) :
    atom.toJson.depth ≤ value.depth + 1 := by
  have around {bound : Nat} (small : value.depth ≤ bound + 1) : atom.toJson.depth ≤ bound + 2 := by
    have written : Reading.IsWritten (bound + 2) (Reading.ofJson value) :=
      ⟨value, rfl, Nat.lt_succ_of_le small⟩
    have keeps := (AtomSource.keeps (TermSource.keeps_isWritten room bound)).of_imp
      (fun reading written => Reading.nested_of_imp (fun _ => Reading.nested_isWritten)
        (Reading.nested_isWritten written))
    exact keeps _ atom written found
  cases value with
  | arr items => exact around (Nat.le_refl _)
  | obj members => exact around (Nat.le_refl _)
  | _ => contradiction

theorem LiteralSource.depth_onlyPair_le {key : String} {value : Json} {lhs rhs : TermSource}
    (found : onlyPair key (membersOf value) = some (lhs, rhs)) :
    depth (.arr [lhs.toJson, rhs.toJson]) ≤ value.depth := by
  unfold onlyPair at found
  split at found
  · next name left right only =>
      split at found
      · next foundLeft foundRight =>
          cases found
          have leftSmall := TermSource.depth_toJson_le left _ foundLeft
          have rightSmall := TermSource.depth_toJson_le right _ foundRight
          have member : (name, Json.arr [left, right]) ∈ membersOf value :=
            List.mem_of_mem_filter (only ▸ List.mem_singleton_self _)
          cases value with
          | obj members =>
              have pairSmall : depth (.arr [left, right]) ≤ depthMembers members :=
                depth_le_of_mem member
              simp only [depth, depthItems] at pairSmall ⊢
              omega
          | _ => contradiction
      · contradiction
  · contradiction

/-- What a value describes as a conjunct is written with one array more at most. -/
theorem LiteralSource.depth_toJson_le {value : Json} {literal : LiteralSource}
    (found : LiteralSource.ofJson? value = some literal) :
    literal.toJson.depth ≤ value.depth + 1 := by
  unfold LiteralSource.ofJson? at found
  split at found
  · next pair =>
      cases found
      exact Nat.succ_le_succ (LiteralSource.depth_onlyPair_le pair)
  · split at found
    · next pair =>
        cases found
        exact Nat.succ_le_succ (LiteralSource.depth_onlyPair_le pair)
    · split at found
      · next atom read =>
          cases found
          exact AtomSource.depth_le_of_ofJson read
      · contradiction

theorem LiteralSource.keeps_isScanned (room : Nat) :
    Keeps Reading.IsScanned (LiteralSource.read room) fun literal =>
      literal.toJson.depth ≤ room + 1 := by
  intro reading literal scanned found
  obtain ⟨value, taken, found⟩ := exists_of_bind_eq_ok found
  have small := depth_le_of_toJson reading room value scanned taken
  split at found
  · next described =>
      cases found
      exact Nat.le_trans (LiteralSource.depth_toJson_le described) (Nat.succ_le_succ small)
  · contradiction

/-! ## Rules, facts and programs -/

theorem AtomSource.keeps_isScanned {room : Nat} (roomy : 2 ≤ room) :
    Keeps Reading.IsScanned (AtomSource.read (room - 2)) fun atom =>
      atom.toJson.depth ≤ room + 1 := by
  obtain ⟨room, rfl⟩ := Nat.exists_eq_add_of_le' roomy
  refine (AtomSource.keeps (TermSource.keeps_isScanned room)).of_imp fun reading scanned => ?_
  exact Reading.nested_of_imp (fun _ => Reading.nested_isScanned) (Reading.nested_isScanned scanned)

/-- Whether the fields of a rule nest at most so much. -/
def RuleFieldsWithin (bound : Nat)
    (fields : Option AtomSource × Option (List LiteralSource)) : Prop :=
  (∀ head ∈ fields.1, head.toJson.depth ≤ bound) ∧
    ∀ body ∈ fields.2, ∀ literal ∈ body, literal.toJson.depth < bound

theorem RuleSource.depth_le_of_within {bound : Nat} {head : AtomSource}
    {body : Option (List LiteralSource)} (within : RuleFieldsWithin bound (some head, body))
    (roomy : 1 ≤ bound) :
    (RuleSource.toJson { head, body := body.getD [] }).depth ≤ bound + 1 := by
  rw [RuleSource.depth_toJson]
  apply Nat.succ_le_succ
  apply Nat.max_le.mpr
  obtain ⟨bound, rfl⟩ := Nat.exists_eq_add_of_le' roomy
  refine ⟨within.1 head rfl, Nat.succ_le_succ (depthItems_map_le ?_)⟩
  cases body with
  | none => simp
  | some body => exact fun literal listed => Nat.le_of_lt_succ (within.2 body rfl literal listed)

theorem RuleSource.keeps_isScanned {room : Nat} (roomy : 2 ≤ room) :
    Keeps Reading.IsScanned (RuleSource.read room) fun rule => rule.toJson.depth ≤ room + 2 := by
  have headKept := AtomSource.keeps_isScanned roomy
  have bodyKept : Keeps Reading.IsScanned (readList (LiteralSource.read (room - 1))) fun body =>
      ∀ literal ∈ body, literal.toJson.depth < room + 1 := by
    have kept := (LiteralSource.keeps_isScanned (room - 1)).readList
    intro reading body scanned found literal listed
    have small := kept reading body (Reading.nested_isScanned scanned) found literal listed
    omega
  intro reading rule scanned found
  have given := Reading.nested_isScanned scanned
  cases reading with
  | obj members =>
      obtain ⟨⟨head, body⟩, foundFields, found⟩ := exists_of_bind_eq_ok found
      have within : RuleFieldsWithin (room + 1) (head, body) := by
        refine invariant_of_readFields (fun state key before => ?_) given ?_ foundFields
        · split
          · refine headKept.takeOnce ?_ _
            intro head small
            refine ⟨?_, before.2⟩
            rintro other ⟨⟩
            exact small
          · split
            · refine bodyKept.takeOnce ?_ _
              intro body small
              refine ⟨before.1, ?_⟩
              rintro other ⟨⟩
              exact small
            · exact FieldAction.keeps_ignore _ _
        · exact ⟨by simp, by simp⟩
      cases head with
      | none => contradiction
      | some head =>
          cases found
          exact RuleSource.depth_le_of_within within (Nat.le_add_left 1 room)
  | arr items =>
      obtain ⟨⟨head, items⟩, foundHead, found⟩ := exists_of_bind_eq_ok found
      obtain ⟨⟨body, items'⟩, foundBody, found⟩ := exists_of_bind_eq_ok found
      obtain ⟨_, ended, found⟩ := exists_of_bind_eq_ok found
      cases found
      have head := headKept.requiredField given foundHead
      have body := bodyKept.nextField head.2 foundBody
      refine RuleSource.depth_le_of_within ⟨?_, body.1⟩ (Nat.le_add_left 1 room)
      rintro other ⟨⟩
      exact head.1
  | _ => contradiction

/-- Whether the facts of every relation nest at most so much. -/
def FactTableWithin (bound : Nat) (table : FactTable (List (List TermSource))) : Prop :=
  ∀ entry ∈ table.entries, (factsToJson entry.2).depth ≤ bound

theorem depthMembers_map_le {bound : Nat} {entries : List (String × List (List TermSource))}
    (small : ∀ entry ∈ entries, (factsToJson entry.2).depth ≤ bound) :
    depthMembers (entries.map fun entry => (entry.1, factsToJson entry.2)) ≤ bound := by
  induction entries with
  | nil => exact Nat.zero_le bound
  | cons entry entries ih =>
      obtain ⟨first, others⟩ := List.forall_mem_cons.mp small
      exact Nat.max_le.mpr ⟨first, ih others⟩

theorem depth_factTable_le {bound : Nat} {table : FactTable (List (List TermSource))}
    (within : FactTableWithin bound table) : (factTableToJson table).depth ≤ bound + 1 :=
  Nat.succ_le_succ (depthMembers_map_le within)

theorem keeps_readFactMembers {room : Nat} {holds : Reading → Prop} {bound : Nat}
    (keeps : Keeps holds (readList (readList (TermSource.read room))) fun facts =>
      (factsToJson facts).depth ≤ bound)
    {table : FactTable (List (List TermSource))} {members : Members} (given : members.All holds)
    (before : FactTableWithin bound table) {last : FactTable (List (List TermSource))}
    (found : readFactMembers room table members = .ok last) : FactTableWithin bound last := by
  fun_induction readFactMembers room table members with
  | case1 =>
      cases found
      exact before
  | case2 table key keySkipped value rest ih =>
      obtain ⟨name, -, found⟩ := exists_of_bind_eq_ok found
      obtain ⟨facts, foundFacts, found⟩ := exists_of_bind_eq_ok found
      refine ih name facts given.2 (fun entry listed => ?_) found
      obtain rfl | known := mem_insertSorted listed
      · exact keeps value facts given.1 foundFacts
      · exact before entry known
  | case3 => contradiction

theorem readFacts_keeps_isScanned {room : Nat} (roomy : 3 ≤ room) :
    Keeps Reading.IsScanned (readFacts room) fun facts =>
      (factTableToJson facts).depth ≤ room + 1 := by
  obtain ⟨room, rfl⟩ := Nat.exists_eq_add_of_le' roomy
  intro reading facts scanned found
  have given := Reading.nested_isScanned scanned
  have keeps : Keeps Reading.IsScanned (readList (readList (TermSource.read room))) fun facts =>
      (factsToJson facts).depth ≤ room + 3 := by
    intro reading facts scanned found
    have given := Reading.nested_of_imp (fun _ => Reading.nested_isScanned)
      (Reading.nested_isScanned scanned)
    have small := (TermSource.keeps_isScanned room).readList.readList reading facts given found
    refine Nat.succ_le_succ (depthItems_map_le fun args listed => Nat.succ_le_succ ?_)
    rw [TermSource.listToJson_eq_map]
    exact depthItems_map_le (small args listed)
  cases reading with
  | obj members =>
      exact depth_factTable_le (keeps_readFactMembers keeps given (fun _ listed => by contradiction)
        found)
  | _ => contradiction

theorem readQuery_keeps_isScanned {room : Nat} (roomy : 2 ≤ room) :
    Keeps Reading.IsScanned (readQuery room) fun query =>
      (queryToJson query).depth ≤ room + 1 := by
  intro reading query scanned found
  unfold readQuery at found
  split at found
  · cases found
    exact Nat.zero_le _
  · cases foundAtom : AtomSource.read (room - 2) reading with
    | error fault =>
        rw [foundAtom] at found
        contradiction
    | ok atom =>
        rw [foundAtom] at found
        cases found
        exact AtomSource.keeps_isScanned roomy reading atom scanned foundAtom

/-- Whether the fields of a program nest at most so much. -/
structure ProgramFields.Within (bound : Nat) (fields : ProgramFields) : Prop where
  facts : ∀ facts ∈ fields.facts, (factTableToJson facts).depth ≤ bound
  rules : ∀ rules ∈ fields.rules, depth (.arr (rules.map RuleSource.toJson)) ≤ bound
  query : ∀ query ∈ fields.query, (queryToJson query).depth ≤ bound

theorem ProgramSource.depth_le_of_within {bound : Nat} {fields : ProgramFields}
    (within : fields.Within bound) (roomy : 2 ≤ bound) (relations : List RelationDecl) :
    (ProgramSource.toJson
      { relations
        facts := fields.facts.getD {}
        rules := fields.rules.getD []
        query := fields.query.getD none }).depth ≤ bound + 1 := by
  obtain ⟨bound, rfl⟩ := Nat.exists_eq_add_of_le' roomy
  have relationsSmall := depth_relations_le relations
  have factsSmall : (factTableToJson (fields.facts.getD {})).depth ≤ bound + 2 := by
    cases read : fields.facts with
    | none => exact Nat.le_add_left ..
    | some facts => exact within.facts facts read
  have rulesSmall : depth (.arr ((fields.rules.getD []).map RuleSource.toJson)) ≤ bound + 2 := by
    cases read : fields.rules with
    | none => exact Nat.le_add_left ..
    | some rules => exact within.rules rules read
  have querySmall : (queryToJson (fields.query.getD none)).depth ≤ bound + 2 := by
    cases read : fields.query with
    | none => exact Nat.zero_le _
    | some query => exact within.query query read
  rw [ProgramSource.depth_toJson]
  simp only
  omega

/-- A program that is read with some room is written with one array more at most. -/
theorem ProgramSource.keeps_isScanned {room : Nat} (roomy : 4 ≤ room) :
    Keeps Reading.IsScanned (ProgramSource.read room) fun program =>
      program.toJson.depth ≤ room + 2 := by
  obtain ⟨room, rfl⟩ := Nat.exists_eq_add_of_le' roomy
  have factsKept := readFacts_keeps_isScanned (Nat.le_add_left 3 (room + 1))
  have queryKept := readQuery_keeps_isScanned (Nat.le_add_left 2 (room + 2))
  have rulesKept : Keeps Reading.IsScanned (readList (RuleSource.read (room + 2))) fun rules =>
      depth (.arr (rules.map RuleSource.toJson)) ≤ room + 5 := by
    intro reading rules scanned found
    have kept := (RuleSource.keeps_isScanned (Nat.le_add_left 2 room)).readList
    exact Nat.succ_le_succ
      (depthItems_map_le (kept reading rules (Reading.nested_isScanned scanned) found))
  intro reading program scanned found
  have given := Reading.nested_isScanned scanned
  cases reading with
  | obj members =>
      obtain ⟨fields, foundFields, found⟩ := exists_of_bind_eq_ok found
      have within : fields.Within (room + 5) := by
        -- A field is taken at most once, and taking it leaves the others as they are.
        refine invariant_of_readFields (fun state key before => ?_) given ?_ foundFields
        · split
          · refine (keeps_true _ _).takeOnce ?_ _
            exact fun _ _ => ⟨before.facts, before.rules, before.query⟩
          · split
            · refine factsKept.takeOnce ?_ _
              intro facts small
              refine ⟨?_, before.rules, before.query⟩
              rintro other ⟨⟩
              exact small
            · split
              · refine rulesKept.takeOnce ?_ _
                intro rules small
                refine ⟨before.facts, ?_, before.query⟩
                rintro other ⟨⟩
                exact small
              · split
                · refine queryKept.takeOnce ?_ _
                  intro query small
                  refine ⟨before.facts, before.rules, ?_⟩
                  rintro other ⟨⟩
                  exact small
                · exact FieldAction.keeps_refuse _ _
        · exact ⟨by simp, by simp, by simp⟩
      obtain ⟨relations, -, found⟩ := exists_of_bind_eq_ok found
      cases found
      exact ProgramSource.depth_le_of_within within (Nat.le_add_left ..) relations
  | arr items =>
      obtain ⟨⟨relations, items⟩, foundRelations, found⟩ := exists_of_bind_eq_ok found
      obtain ⟨⟨facts, items'⟩, foundFacts, found⟩ := exists_of_bind_eq_ok found
      obtain ⟨⟨rules, items''⟩, foundRules, found⟩ := exists_of_bind_eq_ok found
      obtain ⟨⟨query, items⟩, foundQuery, found⟩ := exists_of_bind_eq_ok found
      obtain ⟨_, ended, found⟩ := exists_of_bind_eq_ok found
      cases found
      have given := ((keeps_true _ (readList RelationDecl.read)).requiredField given foundRelations).2
      have keptFacts := factsKept.nextField given foundFacts
      have keptRules := rulesKept.nextField keptFacts.2 foundRules
      have keptQuery := queryKept.nextField keptRules.2 foundQuery
      have within : ({ facts, rules, query } : ProgramFields).Within (room + 5) :=
        ⟨keptFacts.1, keptRules.1, keptQuery.1⟩
      exact ProgramSource.depth_le_of_within within (Nat.le_add_left ..) relations
  | _ => contradiction

/-! ## Texts -/

/-- Whatever was read from a text nests one array more at most when it is written, and it is read
back as it is unless it does. -/
theorem rewritten_of_ofString {text : String} {program : ProgramSource}
    (accepted : ProgramSource.ofString text = .ok program) :
    program.toJson.depth ≤ nestingLimit + 1 ∧
      ProgramSource.ofString (render program.toJson) =
        if program.toJson.depth ≤ nestingLimit then .ok program else .error .malformed := by
  have small : program.toJson.depth ≤ nestingLimit + 1 := by
    obtain ⟨found, read, accepted⟩ := exists_of_bind_eq_ok accepted
    split at accepted
    · cases accepted
      exact ProgramSource.keeps_isScanned (by decide : 4 ≤ nestingLimit - 1) _ _
        (isScanned_ofString text) read
    · contradiction
  exact ⟨small, ProgramSource.ofString_toJson program⟩

namespace Sample

/-- A term in a term in a term, the last of which leaves out its arguments. -/
def chain : Nat → Json
  | 0 => .obj [("ctor", .str "f")]
  | levels + 1 => .obj [("ctor", .str "f"), ("args", .arr [chain levels])]

def chainTerm : Nat → TermSource
  | 0 => .ctor "f" []
  | levels + 1 => .ctor "f" [chainTerm levels]

/-- A program whose only fact is such a term. -/
def chainJson (levels : Nat) : Json :=
  .obj
    [ ("relations", .arr [.obj [("name", .str "r"), ("arity", .int 1)]]),
      ("facts", .obj [("r", .arr [.arr [chain levels]])]) ]

def chainProgram (levels : Nat) : ProgramSource where
  relations := [{ name := "r", arity := .ofNat 1 }]
  facts := .singleton "r" [[chainTerm levels]]

theorem depth_chain (levels : Nat) : (chain levels).depth = 2 * levels + 1 := by
  induction levels with
  | zero => rfl
  | succ levels ih =>
      simp only [chain, depth, depthMembers, depthItems, ih]
      omega

theorem depth_chainTerm (levels : Nat) : (chainTerm levels).toJson.depth = 2 * levels + 2 := by
  induction levels with
  | zero => rfl
  | succ levels ih =>
      simp only [chainTerm, TermSource.toJson, TermSource.listToJson, depth, depthMembers,
        depthItems, ih]
      omega

theorem isWhole_chain (levels : Nat) : isWhole (chain levels) = true := by
  induction levels with
  | zero => rfl
  | succ levels ih => simp [chain, isWhole, membersWhole, areWhole, ih]

theorem ofJson?_chain (levels : Nat) :
    TermSource.ofJson? (chain levels) = some (chainTerm levels) := by
  induction levels with
  | zero => simp [chain, chainTerm, TermSource.ofJson?, onlyString, onlyArgs, TermSource.argLists]
  | succ levels ih =>
      simp [chain, chainTerm, TermSource.ofJson?, TermSource.listOfJson?, onlyString, onlyArgs,
        TermSource.argLists, ih]

theorem read_chain {room levels : Nat} (fits : 2 * levels + 1 ≤ room) :
    TermSource.read room (Reading.ofJson (chain levels)) = .ok (chainTerm levels) := by
  unfold TermSource.read
  rw [Json.toJson_ofJson, depth_chain, if_pos fits]
  simp only [bind, Except.bind, ofJson?_chain]

theorem readFacts_chain {room levels : Nat} (fits : 2 * levels + 4 ≤ room) :
    readFacts room (Reading.ofJson (.obj [("r", .arr [.arr [chain levels]])])) =
      .ok (chainProgram levels).facts := by
  have readTerm : TermSource.read (room - 3) (Reading.ofJson (chain levels)) =
      .ok (chainTerm levels) := read_chain (by omega)
  simp [Reading.ofJson, Members.ofJson, Items.ofJson, readFacts, readFactMembers, readList,
    readEach, readTerm, bind, Except.bind, chainProgram]
  rfl

theorem readRelations_chain :
    readList RelationDecl.read
        (Reading.ofJson (.arr [.obj [("name", .str "r"), ("arity", .int 1)]])) =
      .ok [{ name := "r", arity := .ofNat 1 }] :=
  (readList_map (RelationDecl.read_toJson (Nat.le_refl 1)) [{ name := "r", arity := .ofNat 1 }]).trans
    (within_of_le (Nat.le_refl 2) _)

theorem read_relations_facts {room : Nat} {relationsRead factsRead : Reading}
    {relations : List RelationDecl} {facts : FactTable (List (List TermSource))}
    (readRelations : readList RelationDecl.read relationsRead = .ok relations)
    (readTable : readFacts room factsRead = .ok facts) :
    ProgramSource.read room
        (.obj (.more (.ok "relations") (.ok ()) relationsRead
          (.more (.ok "facts") (.ok ()) factsRead .closed))) = .ok { relations, facts } := by
  simp [ProgramSource.read, readFields, takeOnce, required, readRelations, readTable, bind,
    Except.bind, Except.map]

theorem ofString_chain {levels : Nat} (fits : 2 * levels + 5 ≤ nestingLimit) :
    ProgramSource.ofString (render (chainJson levels)) = .ok (chainProgram levels) := by
  have whole : isWhole (chainJson levels) = true := by
    simp [chainJson, isWhole, membersWhole, areWhole, isWhole_chain, isExact]
  have reads : ProgramSource.read (nestingLimit - 1) (Reading.ofJson (chainJson levels)) =
      .ok (chainProgram levels) :=
    read_relations_facts readRelations_chain (readFacts_chain (Nat.le_sub_of_add_le fits))
  simp only [ProgramSource.ofString, ofString_render _ whole, reads]
  rfl

theorem depth_chainProgram (levels : Nat) :
    (chainProgram levels).toJson.depth = 2 * levels + 6 := by
  have term := depth_chainTerm levels
  have deep : (factTableToJson (chainProgram levels).facts).depth = 2 * levels + 5 := by
    simp only [chainProgram, FactTable.singleton, factTableToJson, factsToJson,
      List.map_cons, List.map_nil, TermSource.listToJson, depth, depthMembers, depthItems, term]
    omega
  have relations := depth_relations_le (chainProgram levels).relations
  rw [ProgramSource.depth_toJson, deep]
  simp only [chainProgram, List.map_nil, queryToJson, Option.map_none, Option.getD_none, depth,
    depthItems] at relations ⊢
  omega

end Sample

/-- A text that nests as much as it may is read, but what is written for it is refused: the
innermost term has been given its empty list of arguments. -/
theorem refused_after_rewriting :
    ProgramSource.ofString (render (Sample.chainJson 61)) = .ok (Sample.chainProgram 61) ∧
      ProgramSource.ofString (render (Sample.chainProgram 61).toJson) = .error .malformed := by
  have tooDeep : ¬ (Sample.chainProgram 61).toJson.depth ≤ nestingLimit := by
    rw [Sample.depth_chainProgram]
    decide
  exact ⟨Sample.ofString_chain (by decide),
    (ProgramSource.ofString_toJson _).trans (within_of_not_le tooDeep _)⟩

theorem rewritten_of_ofString_sample :
    ProgramSource.ofString (render (Sample.chainJson 60)) = .ok (Sample.chainProgram 60) ∧
      (Sample.chainProgram 60).toJson.depth ≤ nestingLimit + 1 ∧
        ProgramSource.ofString (render (Sample.chainProgram 60).toJson) =
          if (Sample.chainProgram 60).toJson.depth ≤ nestingLimit then .ok (Sample.chainProgram 60)
          else .error .malformed := by
  have accepted : ProgramSource.ofString (render (Sample.chainJson 60)) = .ok (Sample.chainProgram 60) :=
    Sample.ofString_chain (by decide)
  exact ⟨accepted, rewritten_of_ofString accepted⟩

end Source

end Datalog
