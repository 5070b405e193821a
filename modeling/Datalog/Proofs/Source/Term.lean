import Datalog.Proofs.Json.Value
import Datalog.Source.Decode
import Datalog.Source.Encode

/-!
# Described terms as JSON and back

A described term is the first alternative that fits what is written for it, whatever its names and
strings are.  What a value describes is written with one array or object more at most: a constructor
or a call may leave out its arguments, and they are written all the same.
-/

namespace Datalog

namespace MachineInt

theorem isWord_toInt (value : Int64) :
    Int64.minValue.toInt ≤ value.toInt ∧ value.toInt ≤ Int64.maxValue.toInt :=
  ⟨Int64.minValue_le_toInt value, Int64.toInt_le value⟩

theorem ofInt?_toInt (value : Int64) : ofInt? value.toInt = some value := by
  simp only [ofInt?, isWord_toInt value, decide_true, Bool.and_self, if_true, Int64.ofInt_toInt]

end MachineInt

namespace Source

open Json

/-- The outcome of reading something that nests to some depth where there is limited room. -/
def within {α : Type} (depth room : Nat) (found : α) : Except Fault α :=
  if depth ≤ room then .ok found else .error .malformed

@[simp]
theorem within_of_le {α : Type} {depth room : Nat} (fits : depth ≤ room) (found : α) :
    within depth room found = .ok found :=
  if_pos fits

@[simp]
theorem within_of_not_le {α : Type} {depth room : Nat} (fits : ¬ depth ≤ room) (found : α) :
    within depth room found = .error .malformed :=
  if_neg fits

/-! ## Every alternative is read as itself -/

mutual

theorem TermSource.ofJson?_toJson : ∀ term : TermSource, TermSource.ofJson? term.toJson = some term
  | .bool _ => rfl
  | .int value => by
      simp [TermSource.toJson, TermSource.ofJson?, MachineInt.ofInt?_toInt]
  | .name _ => rfl
  | .str _ => by
      simp [TermSource.toJson, TermSource.ofJson?, onlyString]
  | .ctor constructor args => by
      have readArgs := TermSource.listOfJson?_listToJson args
      simp [TermSource.toJson, TermSource.ofJson?, onlyString, TermSource.argLists, onlyArgs,
        readArgs]
  | .call function args => by
      have readArgs := TermSource.listOfJson?_listToJson args
      simp [TermSource.toJson, TermSource.ofJson?, onlyString, TermSource.argLists, onlyArgs,
        readArgs]

theorem TermSource.listOfJson?_listToJson : ∀ terms : List TermSource,
    TermSource.listOfJson? (TermSource.listToJson terms) = some terms
  | [] => rfl
  | term :: terms => by
      simp [TermSource.listToJson, TermSource.listOfJson?, TermSource.ofJson?_toJson term,
        TermSource.listOfJson?_listToJson terms]

end

theorem isExact_toInt (value : Int64) : isExact value.toInt = true := by
  have word := MachineInt.isWord_toInt value
  have small : Int64.maxValue.toInt < UInt64.size := by decide
  simp only [isExact, Bool.and_eq_true, decide_eq_true_eq]
  omega

theorem isExact_toNat (value : UInt64) : isExact value.toNat = true := by
  have small := value.toNat_lt_size
  have negative : Int64.minValue.toInt ≤ 0 := by decide
  simp only [isExact, Bool.and_eq_true, decide_eq_true_eq]
  omega

mutual

theorem TermSource.isWhole_toJson : ∀ term : TermSource, isWhole term.toJson = true
  | .bool _ | .name _ | .str _ => rfl
  | .int value => isExact_toInt value
  | .ctor _ args | .call _ args => by
      simp [TermSource.toJson, isWhole, membersWhole, TermSource.areWhole_listToJson args]

theorem TermSource.areWhole_listToJson : ∀ terms : List TermSource,
    areWhole (TermSource.listToJson terms) = true
  | [] => rfl
  | term :: terms => by
      simp [TermSource.listToJson, areWhole, TermSource.isWhole_toJson term,
        TermSource.areWhole_listToJson terms]

end

/-- A written term is read back where there is room for it. -/
theorem TermSource.read_toJson (room : Nat) (term : TermSource) :
    TermSource.read room (Reading.ofJson term.toJson) = within term.toJson.depth room term := by
  unfold TermSource.read
  rw [toJson_ofJson]
  by_cases fits : term.toJson.depth ≤ room
  · rw [if_pos fits, within_of_le fits]
    simp only [bind, Except.bind, TermSource.ofJson?_toJson]
  · rw [if_neg fits, within_of_not_le fits]
    rfl

/-! ## How deep a term is written -/

theorem depth_le_of_mem {key : String} {value : Json} {members : List (String × Json)}
    (member : (key, value) ∈ members) : value.depth ≤ depthMembers members := by
  induction members with
  | nil => contradiction
  | cons head members ih =>
      obtain rfl | member := List.mem_cons.mp member
      · exact Nat.le_max_left ..
      · exact Nat.le_trans (ih member) (Nat.le_max_right ..)

/-- What a term with arguments nests, next to an object that holds those arguments. -/
theorem TermSource.depth_withArgs_le {key name : String} {args : List TermSource}
    {members : List (String × Json)}
    (small : depthItems (TermSource.listToJson args) ≤ depthMembers members) :
    depth (.obj [(key, .str name), ("args", .arr (TermSource.listToJson args))]) ≤
      depth (.obj members) + 1 := by
  simp only [depth, depthMembers]
  omega

/-- Chosen arguments are listed ones, unless there are none. -/
theorem depth_onlyArgs_le {lists : List (Option (List TermSource))} {bound : Nat}
    (small : ∀ args, some args ∈ lists → depthItems (TermSource.listToJson args) ≤ bound)
    {args : List TermSource} (chosen : onlyArgs lists = some args) :
    depthItems (TermSource.listToJson args) ≤ bound := by
  unfold onlyArgs at chosen
  split at chosen
  · cases chosen
    exact Nat.zero_le bound
  · next listed =>
      exact small args (List.mem_singleton.mpr chosen.symm)
  · contradiction

mutual

/-- A term is written with one array more than the value it was read from has, at most. -/
theorem TermSource.depth_toJson_le : ∀ (value : Json) (term : TermSource),
    TermSource.ofJson? value = some term → term.toJson.depth ≤ value.depth + 1
  | .null, _, found | .real _, _, found | .arr _, _, found => by
      simp [TermSource.ofJson?] at found
  | .bool _, _, found | .str _, _, found => by
      cases found
      exact Nat.zero_le _
  | .int value, term, found => by
      obtain ⟨word, -, rfl⟩ := Option.map_eq_some_iff.mp found
      exact Nat.zero_le _
  | .obj members, term, found => by
      have small := TermSource.depth_argLists_le members
      simp only [TermSource.ofJson?] at found
      generalize onlyString "str" members = string at found
      generalize onlyString "ctor" members = constructor at found
      generalize onlyString "call" members = function at found
      generalize chosen : onlyArgs (TermSource.argLists members) = args at found
      split at found
      · cases found
        exact Nat.le_add_left ..
      · split at found
        · cases found
          exact TermSource.depth_withArgs_le (depth_onlyArgs_le small chosen)
        · split at found
          · cases found
            exact TermSource.depth_withArgs_le (depth_onlyArgs_le small chosen)
          · contradiction

theorem TermSource.depth_listToJson_le : ∀ (items : List Json) (terms : List TermSource),
    TermSource.listOfJson? items = some terms →
      depthItems (TermSource.listToJson terms) ≤ depthItems items + 1
  | [], _, found => by
      cases found
      exact Nat.zero_le _
  | item :: items, terms, found => by
      simp only [TermSource.listOfJson?] at found
      split at found
      · next first others foundFirst foundOthers =>
          cases found
          have first := TermSource.depth_toJson_le item first foundFirst
          have others := TermSource.depth_listToJson_le items others foundOthers
          simp only [TermSource.listToJson, depthItems]
          omega
      · contradiction

theorem TermSource.depth_argLists_le : ∀ (members : List (String × Json)) (args : List TermSource),
    some args ∈ TermSource.argLists members →
      depthItems (TermSource.listToJson args) ≤ depthMembers members
  | [], args, listed => by contradiction
  | (key, .arr items) :: members, args, listed => by
      simp only [TermSource.argLists] at listed
      have others := TermSource.depth_argLists_le members args
      split at listed
      · obtain here | later := List.mem_cons.mp listed
        · have here := TermSource.depth_listToJson_le items args here.symm
          exact Nat.le_trans here (Nat.le_max_left ..)
        · exact Nat.le_trans (others later) (Nat.le_max_right ..)
      · exact Nat.le_trans (others listed) (Nat.le_max_right ..)
  | (key, .null) :: members, args, listed | (key, .bool _) :: members, args, listed
  | (key, .int _) :: members, args, listed | (key, .real _) :: members, args, listed
  | (key, .str _) :: members, args, listed | (key, .obj _) :: members, args, listed => by
      have others := TermSource.depth_argLists_le members args
      simp only [TermSource.argLists] at listed
      split at listed
      · obtain here | later := List.mem_cons.mp listed
        · contradiction
        · exact Nat.le_trans (others later) (Nat.le_max_right ..)
      · exact Nat.le_trans (others listed) (Nat.le_max_right ..)

end

end Source

end Datalog
