import Datalog.Json.Reading
import Datalog.Proofs.Json.Token

/-!
# Written values are read back

A value without fractions is read back from what is written for it, and a document that holds nothing
else ends there.  How deep a value nests decides whether a reader with limited room takes it.
-/

namespace Datalog

namespace Json

/-! ## Nesting -/

mutual

/-- How many arrays and objects a value nests. -/
def depth : Json → Nat
  | .null | .bool _ | .int _ | .real _ | .str _ => 0
  | .arr items => depthItems items + 1
  | .obj members => depthMembers members + 1

def depthItems : List Json → Nat
  | [] => 0
  | item :: items => max (depth item) (depthItems items)

def depthMembers : List (String × Json) → Nat
  | [] => 0
  | (_, value) :: members => max (depth value) (depthMembers members)

end

mutual

/-- Whether every number in a value is an integer that is read exactly. -/
def isWhole : Json → Bool
  | .null | .bool _ | .str _ => true
  | .int value => isExact value
  | .real _ => false
  | .arr items => areWhole items
  | .obj members => membersWhole members

def areWhole : List Json → Bool
  | [] => true
  | item :: items => isWhole item && areWhole items

def membersWhole : List (String × Json) → Bool
  | [] => true
  | (_, value) :: members => isWhole value && membersWhole members

end

/-! ## What is written -/

/-- What follows the first text between two brackets. -/
def followed (close : Char) (texts : List String) : List Char :=
  texts.flatMap (fun text => ',' :: text.toList) ++ [close]

theorem followed_cons (close : Char) (text : String) (texts : List String) :
    followed close (text :: texts) = ',' :: (text.toList ++ followed close texts) := by
  simp [followed]

theorem toList_join (close : Char) (text : String) (texts : List String) :
    (Text.join "," (text :: texts)).toList ++ [close] = text.toList ++ followed close texts := by
  induction texts generalizing text with
  | nil => simp [Text.join, followed]
  | cons next texts ih =>
      have others := ih next
      simp only [Text.join, String.toList_append, List.append_assoc] at others ⊢
      rw [others]
      simp [followed]

theorem endsNumber_followed (close : Char) (closes : endsNumber [close] = true)
    (texts : List String) (rest : List Char) :
    endsNumber (followed close texts ++ rest) = true := by
  cases texts with
  | nil => exact closes
  | cons text texts => rfl

theorem length_followed_pos (close : Char) (texts : List String) :
    0 < (followed close texts).length := by
  simp [followed]

theorem toList_renderString (value : String) :
    (renderString value).toList = '"' :: (value.toList.flatMap escapeChar ++ ['"']) := by
  simp [renderString]

theorem toList_render_arr (item : Json) (items : List Json) :
    (render (.arr (item :: items))).toList =
      '[' :: ((render item).toList ++ followed ']' (renderItems items)) := by
  rw [← toList_join]
  simp [render, renderItems]

theorem toList_render_obj (key : String) (value : Json) (members : List (String × Json)) :
    (render (.obj ((key, value) :: members))).toList =
      '\x7b' :: ((renderString key ++ ":" ++ render value).toList ++
        followed '\x7d' (renderMembers members)) := by
  rw [← toList_join]
  simp [render, renderMembers]

/-! ## Reading it -/

theorem skipBlanks_cons {c : Char} (notBlank : isBlank c = false) (text : List Char) :
    skipBlanks (c :: text) = c :: text := by
  simp [skipBlanks, notBlank]

theorem readWord_append (value : Reading) (word rest : List Char) :
    readWord value word (word ++ rest) = (value, rest) := by
  induction word with
  | nil => rfl
  | cons c word ih => simpa [readWord] using ih

/-- Whether a character may begin a number. -/
def startsNumber (c : Char) : Bool :=
  c = '-' || isDigit c

theorem ne_of_startsNumber {c d : Char} (starts : startsNumber c = true)
    (other : startsNumber d = false) : c ≠ d := by
  intro same
  rw [same, other] at starts
  contradiction

theorem isBlank_of_startsNumber {c : Char} (starts : startsNumber c = true) : isBlank c = false := by
  have noSpace := ne_of_startsNumber (d := ' ') starts (by decide)
  have noTab := ne_of_startsNumber (d := '\t') starts (by decide)
  have noNewline := ne_of_startsNumber (d := '\n') starts (by decide)
  have noReturn := ne_of_startsNumber (d := '\r') starts (by decide)
  simp [isBlank, noSpace, noTab, noNewline, noReturn]

/-- What starts like a number is read as one. -/
theorem readValue_number (fuel : Nat) {c : Char} (starts : startsNumber c = true)
    (text : List Char) :
    readValue (fuel + 1) (c :: text) =
      (.number (scanNumber (c :: text)).value ((scanNumber (c :: text)).rest.map fun _ => ()),
        restOf (scanNumber (c :: text)).rest) := by
  rw [readValue, skipBlanks_cons (isBlank_of_startsNumber starts)]
  split
  · contradiction
  · next same => exact absurd (List.cons.inj same).1 (ne_of_startsNumber starts (by decide))
  · next same => exact absurd (List.cons.inj same).1 (ne_of_startsNumber starts (by decide))
  · next same => exact absurd (List.cons.inj same).1 (ne_of_startsNumber starts (by decide))
  · next same => exact absurd (List.cons.inj same).1 (ne_of_startsNumber starts (by decide))
  · next same => exact absurd (List.cons.inj same).1 (ne_of_startsNumber starts (by decide))
  · next same => exact absurd (List.cons.inj same).1 (ne_of_startsNumber starts (by decide))
  · next same =>
      obtain ⟨rfl, rfl⟩ := List.cons.inj same
      exact if_pos starts

theorem exists_toString_cons (value : Int) :
    ∃ c text, (toString value).toList = c :: text ∧ startsNumber c = true := by
  cases value with
  | ofNat number =>
      obtain ⟨first, others, digits, digit⟩ := exists_toDigits_cons number
      exact ⟨first, others, Nat.toList_repr.trans digits, by simp [startsNumber, digit]⟩
  | negSucc number =>
      exact ⟨'-', Nat.toDigits 10 (number + 1), by simp [toString, Int.repr], rfl⟩

/-- A value starts neither with a blank nor with a closing bracket. -/
theorem exists_render_cons (value : Json) (whole : isWhole value = true) :
    ∃ c text, (render value).toList = c :: text ∧ isBlank c = false ∧ c ≠ ']' := by
  cases value with
  | null => exact ⟨'n', "ull".toList, rfl, by decide, by decide⟩
  | bool value =>
      cases value
      · exact ⟨'f', "alse".toList, rfl, by decide, by decide⟩
      · exact ⟨'t', "rue".toList, rfl, by decide, by decide⟩
  | int value =>
      obtain ⟨c, text, written, starts⟩ := exists_toString_cons value
      exact ⟨c, text, written, isBlank_of_startsNumber starts,
        ne_of_startsNumber starts (by decide)⟩
  | real written => simp [isWhole] at whole
  | str value => exact ⟨'"', _, toList_renderString value, by decide, by decide⟩
  | arr items =>
      have written : (render (.arr items)).toList =
          '[' :: ((Text.join "," (renderItems items)).toList ++ [']']) := by simp [render]
      exact ⟨'[', _, written, by decide, by decide⟩
  | obj members =>
      have written : (render (.obj members)).toList =
          '\x7b' :: ((Text.join "," (renderMembers members)).toList ++ ['\x7d']) := by simp [render]
      exact ⟨'\x7b', _, written, by decide, by decide⟩

theorem readItems_first (fuel : Nat) (item : Json) (whole : isWhole item = true) (rest : List Char) :
    readItems (fuel + 1) true ((render item).toList ++ rest) =
      readItem fuel ((render item).toList ++ rest) := by
  obtain ⟨c, text, written, notBlank, notClosing⟩ := exists_render_cons item whole
  rw [written, List.cons_append, readItems, skipBlanks_cons notBlank]
  split
  · contradiction
  · next same => exact absurd (List.cons.inj same).1 notClosing
  · next same =>
      obtain ⟨rfl, rfl⟩ := List.cons.inj same
      rfl

theorem readMembers_first (fuel : Nat) (key : String) (rest : List Char) :
    readMembers (fuel + 1) true ((renderString key).toList ++ rest) =
      readMember fuel ((renderString key).toList ++ rest) := by
  rw [toList_renderString, List.cons_append, readMembers, skipBlanks_cons (by decide)]
  rfl

theorem readMember_render {fuel : Nat} (key : String) {value : Reading} {members : Members}
    {text middle rest : List Char} (readsValue : readValue fuel text = (value, middle))
    (readsMembers : readMembers fuel false middle = (members, rest)) :
    readMember (fuel + 1) ((renderString key).toList ++ ':' :: text) =
      (.more (.ok key) (.ok ()) value members, rest) := by
  have scanned := scanString_escaped key (':' :: text)
  rw [toList_renderString, List.cons_append, readMember, skipBlanks_cons (by decide)]
  simp only [List.append_assoc, List.singleton_append, scanned, restOf,
    skipBlanks_cons (c := ':') (by decide), readsValue, readsMembers, Except.map]

theorem readValue_string (fuel : Nat) (value : String) (rest : List Char) :
    readValue (fuel + 1) ((renderString value).toList ++ rest) =
      (.str (.ok value) (.ok ()), rest) := by
  have scanned := scanString_escaped value rest
  rw [toList_renderString, List.cons_append, readValue, skipBlanks_cons (by decide)]
  simp only [List.append_assoc, List.singleton_append, scanned, restOf, Except.map]

theorem readValue_int (fuel : Nat) {value : Int} (exact : isExact value = true) {rest : List Char}
    (ends : endsNumber rest = true) :
    readValue (fuel + 1) ((toString value).toList ++ rest) =
      (.number (.ok (.int value)) (.ok ()), rest) := by
  obtain ⟨c, text, written, starts⟩ := exists_toString_cons value
  have scanned := scanNumber_toString exact ends
  rw [written, List.cons_append] at scanned ⊢
  rw [readValue_number fuel starts, scanned]
  rfl

mutual

/-- Reading a value that was written gives the value, as far as readings go.  Every character allows
three steps, which is more than the reader takes. -/
theorem readValue_render : ∀ (value : Json) (fuel : Nat) (rest : List Char),
    isWhole value = true → 3 * (render value).toList.length ≤ fuel → endsNumber rest = true →
      readValue fuel ((render value).toList ++ rest) = (Reading.ofJson value, rest)
  | .null => by
      intro fuel rest _ enough _
      obtain ⟨fuel, rfl⟩ := Nat.exists_eq_add_of_le' (Nat.le_trans (by decide : 1 ≤ 12) enough)
      exact readWord_append .null "ull".toList rest
  | .bool true => by
      intro fuel rest _ enough _
      obtain ⟨fuel, rfl⟩ := Nat.exists_eq_add_of_le' (Nat.le_trans (by decide : 1 ≤ 12) enough)
      exact readWord_append (.bool true) "rue".toList rest
  | .bool false => by
      intro fuel rest _ enough _
      obtain ⟨fuel, rfl⟩ := Nat.exists_eq_add_of_le' (Nat.le_trans (by decide : 1 ≤ 15) enough)
      exact readWord_append (.bool false) "alse".toList rest
  | .int value => by
      intro fuel rest whole enough ends
      obtain ⟨c, text, written, -⟩ := exists_toString_cons value
      simp only [render, written, List.length_cons] at enough
      obtain ⟨fuel, rfl⟩ := Nat.exists_eq_add_of_le' (Nat.le_trans (by omega) enough : 1 ≤ fuel)
      exact readValue_int fuel whole ends
  | .real _ => by
      intro _ _ whole
      contradiction
  | .str value => by
      intro fuel rest _ enough _
      simp only [render, toList_renderString, List.length_cons] at enough
      obtain ⟨fuel, rfl⟩ := Nat.exists_eq_add_of_le' (Nat.le_trans (by omega) enough : 1 ≤ fuel)
      exact readValue_string fuel value rest
  | .arr [] => by
      intro fuel rest _ enough _
      obtain ⟨fuel, rfl⟩ := Nat.exists_eq_add_of_le' (Nat.le_trans (by decide : 2 ≤ 6) enough)
      rfl
  | .arr (item :: items) => by
      intro fuel rest whole enough _
      simp only [isWhole, areWhole, Bool.and_eq_true] at whole
      -- The fuel counts characters, so that enough is left for the item and for the others.
      have closing := length_followed_pos ']' (renderItems items)
      simp only [toList_render_arr, List.length_cons, List.length_append] at enough
      obtain ⟨fuel, rfl⟩ := Nat.exists_eq_add_of_le' (Nat.le_trans (by omega) enough : 3 ≤ fuel)
      have readsItem := readValue_render item fuel (followed ']' (renderItems items) ++ rest) whole.1
        (by omega) (endsNumber_followed ']' rfl _ rest)
      have readsItems := readItems_followed items fuel rest whole.2 (by omega)
      rw [toList_render_arr, List.cons_append, List.append_assoc, readValue,
        skipBlanks_cons (by decide)]
      simp only [readItems_first _ item whole.1, readItem, readsItem, readsItems, Reading.ofJson,
        Items.ofJson]
  | .obj [] => by
      intro fuel rest _ enough _
      obtain ⟨fuel, rfl⟩ := Nat.exists_eq_add_of_le' (Nat.le_trans (by decide : 2 ≤ 6) enough)
      rfl
  | .obj ((key, value) :: members) => by
      intro fuel rest whole enough _
      simp only [isWhole, membersWhole, Bool.and_eq_true] at whole
      have closing := length_followed_pos '\x7d' (renderMembers members)
      simp only [toList_render_obj, String.toList_append, List.length_cons, List.length_append]
        at enough
      obtain ⟨fuel, rfl⟩ := Nat.exists_eq_add_of_le' (Nat.le_trans (by omega) enough : 3 ≤ fuel)
      have readsValue := readValue_render value fuel
        (followed '\x7d' (renderMembers members) ++ rest) whole.1 (by omega)
        (endsNumber_followed '\x7d' rfl _ rest)
      have readsMembers := readMembers_followed members fuel rest whole.2 (by omega)
      have readsMember := readMember_render key readsValue readsMembers
      rw [toList_render_obj, List.cons_append, readValue, skipBlanks_cons (by decide)]
      simp only [String.toList_append, List.append_assoc]
      rw [readMembers_first]
      simp only [Reading.ofJson, Members.ofJson]
      exact congrArg (fun read => (Reading.obj read.1, read.2)) readsMember

theorem readItems_followed : ∀ (items : List Json) (fuel : Nat) (rest : List Char),
    areWhole items = true → 3 * (followed ']' (renderItems items)).length ≤ fuel →
      readItems fuel false (followed ']' (renderItems items) ++ rest) = (Items.ofJson items, rest)
  | [], fuel, rest, _, enough => by
      obtain ⟨fuel, rfl⟩ := Nat.exists_eq_add_of_le' (Nat.le_trans (by decide : 1 ≤ 3) enough)
      rfl
  | item :: items, fuel, rest, whole, enough => by
      simp only [areWhole, Bool.and_eq_true] at whole
      have closing := length_followed_pos ']' (renderItems items)
      simp only [renderItems, followed_cons, List.length_cons, List.length_append] at enough
      obtain ⟨fuel, rfl⟩ := Nat.exists_eq_add_of_le' (Nat.le_trans (by omega) enough : 2 ≤ fuel)
      have readsItem := readValue_render item fuel (followed ']' (renderItems items) ++ rest) whole.1
        (by omega) (endsNumber_followed ']' rfl _ rest)
      have readsItems := readItems_followed items fuel rest whole.2 (by omega)
      rw [renderItems, followed_cons, List.cons_append, List.append_assoc, readItems,
        skipBlanks_cons (by decide)]
      simp [readItem, readsItem, readsItems, Items.ofJson]

theorem readMembers_followed : ∀ (members : List (String × Json)) (fuel : Nat) (rest : List Char),
    membersWhole members = true → 3 * (followed '\x7d' (renderMembers members)).length ≤ fuel →
      readMembers fuel false (followed '\x7d' (renderMembers members) ++ rest) =
        (Members.ofJson members, rest)
  | [], fuel, rest, _, enough => by
      obtain ⟨fuel, rfl⟩ := Nat.exists_eq_add_of_le' (Nat.le_trans (by decide : 1 ≤ 3) enough)
      rfl
  | (key, value) :: members, fuel, rest, whole, enough => by
      simp only [membersWhole, Bool.and_eq_true] at whole
      have closing := length_followed_pos '\x7d' (renderMembers members)
      simp only [renderMembers, followed_cons, String.toList_append, List.length_cons,
        List.length_append] at enough
      obtain ⟨fuel, rfl⟩ := Nat.exists_eq_add_of_le' (Nat.le_trans (by omega) enough : 2 ≤ fuel)
      have readsValue := readValue_render value fuel
        (followed '\x7d' (renderMembers members) ++ rest) whole.1 (by omega)
        (endsNumber_followed '\x7d' rfl _ rest)
      have readsMembers := readMembers_followed members fuel rest whole.2 (by omega)
      have readsMember := readMember_render key readsValue readsMembers
      rw [renderMembers, followed_cons, List.cons_append, readMembers, skipBlanks_cons (by decide)]
      simp only [String.toList_append, List.append_assoc]
      simpa [Members.ofJson] using readsMember

end

/-- A document that holds a written value and nothing else. -/
theorem ofString_render (value : Json) (whole : isWhole value = true) :
    Document.ofString (render value) = { value := Reading.ofJson value, endsThere := true } := by
  have reads := readValue_render value (3 * (render value).toList.length + 3) [] whole
    (Nat.le_add_right ..) rfl
  rw [List.append_nil] at reads
  simp only [Document.ofString, reads]
  rfl

/-! ## Limited room -/

mutual

/-- A reader takes a complete value if there is room for what it nests. -/
theorem toJson_ofJson : ∀ (value : Json) (room : Nat),
    (Reading.ofJson value).toJson room =
      if value.depth ≤ room then .ok value else .error .malformed
  | .null, room => by simp [Reading.ofJson, Reading.toJson, depth]
  | .bool value, room => by simp [Reading.ofJson, Reading.toJson, depth]
  | .int value, room => by simp [Reading.ofJson, Reading.toJson, depth]
  | .real written, room => by simp [Reading.ofJson, Reading.toJson, depth]
  | .str value, room => by simp [Reading.ofJson, Reading.toJson, depth, Except.map]
  | .arr items, 0 => by simp [Reading.ofJson, Reading.toJson, depth]
  | .arr items, room + 1 => by
      simp only [Reading.ofJson, Reading.toJson, depth, itemsToJson_ofJson items room,
        Nat.add_le_add_iff_right]
      split <;> rfl
  | .obj members, 0 => by simp [Reading.ofJson, Reading.toJson, depth]
  | .obj members, room + 1 => by
      simp only [Reading.ofJson, Reading.toJson, depth, membersToJson_ofJson members room,
        Nat.add_le_add_iff_right]
      split <;> rfl

theorem itemsToJson_ofJson : ∀ (items : List Json) (room : Nat),
    (Items.ofJson items).toJson room =
      if depthItems items ≤ room then .ok items else .error .malformed
  | [], room => by simp [Items.ofJson, Items.toJson, depthItems]
  | item :: items, room => by
      simp only [Items.ofJson, Items.toJson, depthItems, toJson_ofJson item room,
        itemsToJson_ofJson items room, Nat.max_le]
      by_cases fits : item.depth ≤ room <;> by_cases others : depthItems items ≤ room <;>
        simp [fits, others, bind, Except.bind]

theorem membersToJson_ofJson : ∀ (members : List (String × Json)) (room : Nat),
    (Members.ofJson members).toJson room =
      if depthMembers members ≤ room then .ok members else .error .malformed
  | [], room => by simp [Members.ofJson, Members.toJson, depthMembers]
  | (key, value) :: members, room => by
      simp only [Members.ofJson, Members.toJson, depthMembers, toJson_ofJson value room,
        membersToJson_ofJson members room, Nat.max_le]
      by_cases fits : value.depth ≤ room <;> by_cases others : depthMembers members ≤ room <;>
        simp [fits, others, bind, Except.bind]

end

/-! ## Any text -/

mutual

/-- Whether the numbers of a reading are values without parts, as those that are scanned. -/
def Reading.IsScanned : Reading → Prop
  | .null | .bool _ | .str .. | .broken _ => True
  | .number value _ => ∀ found, value = .ok found → found.depth = 0
  | .arr items => items.IsScanned
  | .obj members => members.IsScanned

def Items.IsScanned : Items → Prop
  | .closed | .broken _ => True
  | .more item rest => item.IsScanned ∧ rest.IsScanned

def Members.IsScanned : Members → Prop
  | .closed | .broken _ => True
  | .more _ _ value rest => value.IsScanned ∧ rest.IsScanned

end

theorem depth_toJson {parts : NumberParts} {value : Json} (found : parts.toJson = .ok value) :
    value.depth = 0 := by
  unfold NumberParts.toJson at found
  simp only at found
  repeat' split at found
  all_goals first | contradiction | (cases found; rfl)

theorem depth_scanNumber {text : List Char} {value : Json}
    (found : (scanNumber text).value = .ok value) : value.depth = 0 := by
  simp only [scanNumber] at found
  generalize Token.value _ = parts at found
  cases parts with
  | error fault => contradiction
  | ok parts => exact depth_toJson found

theorem isScanned_readWord {value : Reading} (scanned : value.IsScanned) (word text : List Char) :
    (readWord value word text).1.IsScanned := by
  fun_induction readWord value word text with
  | case1 => exact scanned
  | case2 => trivial
  | case3 c word text ih => exact ih
  | case4 => trivial

/-- Whatever the text is, its numbers are scanned. -/
theorem isScanned_read (fuel : Nat) :
    (∀ text, (readValue fuel text).1.IsScanned) ∧
      (∀ first text, (readItems fuel first text).1.IsScanned) ∧
        (∀ text, (readItem fuel text).1.IsScanned) ∧
          (∀ first text, (readMembers fuel first text).1.IsScanned) ∧
            ∀ text, (readMember fuel text).1.IsScanned := by
  induction fuel with
  | zero => simp [readValue, readItems, readItem, readMembers, readMember, Reading.IsScanned,
      Items.IsScanned, Members.IsScanned]
  | succ fuel ih =>
      obtain ⟨value, items, item, members, member⟩ := ih
      refine ⟨?_, ?_, ?_, ?_, ?_⟩
      · intro text
        -- Only a value can be a number; the other readers pass on what they have read.
        have noNumber : Reading.IsScanned .null ∧ ∀ truth, Reading.IsScanned (.bool truth) := by
          simp [Reading.IsScanned]
        rw [readValue]
        split
        · trivial
        · exact isScanned_readWord noNumber.1 ..
        · exact isScanned_readWord (noNumber.2 true) ..
        · exact isScanned_readWord (noNumber.2 false) ..
        · trivial
        · exact items ..
        · exact members ..
        · split
          · exact fun found => depth_scanNumber
          · trivial
      · intro first text
        rw [readItems]
        split
        · trivial
        · trivial
        · split
          · exact item _
          · split
            · exact item _
            · trivial
      · intro text
        exact ⟨value _, items ..⟩
      · intro first text
        rw [readMembers]
        split
        · trivial
        · trivial
        · split
          · exact member _
          · split
            · exact member _
            · trivial
      · intro text
        rw [readMember]
        split
        · trivial
        · simp only
          split
          · exact ⟨trivial, trivial⟩
          · exact ⟨value _, members ..⟩
          · exact ⟨trivial, trivial⟩
        · trivial

theorem isScanned_ofString (text : String) : (Document.ofString text).value.IsScanned := by
  unfold Document.ofString
  exact (isScanned_read _).1 _

theorem exists_of_bind_eq_ok {ε α β : Type} {first : Except ε α} {next : α → Except ε β} {value : β}
    (found : first >>= next = .ok value) :
    ∃ middle, first = .ok middle ∧ next middle = .ok value := by
  cases first with
  | error fault => contradiction
  | ok middle => exact ⟨middle, rfl, found⟩

mutual

/-- A value that a reader has taken nests no more than there was room for. -/
theorem depth_le_of_toJson : ∀ (reading : Reading) (room : Nat) (value : Json),
    reading.IsScanned → reading.toJson room = .ok value → value.depth ≤ room
  | .null, room, value, _, taken => by
      cases taken
      exact Nat.zero_le room
  | .bool truth, room, value, _, taken => by
      cases taken
      exact Nat.zero_le room
  | .number number skipped, room, value, scanned, taken => by
      rw [scanned value taken]
      exact Nat.zero_le room
  | .str text skipped, room, value, _, taken => by
      cases text <;> cases taken
      exact Nat.zero_le room
  | .arr items, 0, value, _, taken => by contradiction
  | .arr items, room + 1, value, scanned, taken => by
      simp only [Reading.toJson] at taken
      cases found : items.toJson room with
      | error fault =>
          rw [found] at taken
          contradiction
      | ok values =>
          rw [found] at taken
          cases taken
          exact Nat.succ_le_succ (depthItems_le_of_toJson items room values scanned found)
  | .obj members, 0, value, _, taken => by contradiction
  | .obj members, room + 1, value, scanned, taken => by
      simp only [Reading.toJson] at taken
      cases found : members.toJson room with
      | error fault =>
          rw [found] at taken
          contradiction
      | ok values =>
          rw [found] at taken
          cases taken
          exact Nat.succ_le_succ (depthMembers_le_of_toJson members room values scanned found)
  | .broken fault, room, value, _, taken => by contradiction

theorem depthItems_le_of_toJson : ∀ (items : Items) (room : Nat) (values : List Json),
    items.IsScanned → items.toJson room = .ok values → depthItems values ≤ room
  | .closed, room, values, _, taken => by
      cases taken
      exact Nat.zero_le room
  | .more item rest, room, values, scanned, taken => by
      obtain ⟨value, foundValue, taken⟩ := exists_of_bind_eq_ok taken
      obtain ⟨others, foundOthers, taken⟩ := exists_of_bind_eq_ok taken
      cases taken
      exact Nat.max_le.mpr ⟨depth_le_of_toJson item room value scanned.1 foundValue,
        depthItems_le_of_toJson rest room others scanned.2 foundOthers⟩
  | .broken fault, room, values, _, taken => by contradiction

theorem depthMembers_le_of_toJson : ∀ (members : Members) (room : Nat)
    (values : List (String × Json)), members.IsScanned → members.toJson room = .ok values →
      depthMembers values ≤ room
  | .closed, room, values, _, taken => by
      cases taken
      exact Nat.zero_le room
  | .more key keySkipped value rest, room, values, scanned, taken => by
      obtain ⟨name, -, taken⟩ := exists_of_bind_eq_ok taken
      obtain ⟨held, foundValue, taken⟩ := exists_of_bind_eq_ok taken
      obtain ⟨others, foundOthers, taken⟩ := exists_of_bind_eq_ok taken
      cases taken
      exact Nat.max_le.mpr ⟨depth_le_of_toJson value room held scanned.1 foundValue,
        depthMembers_le_of_toJson rest room others scanned.2 foundOthers⟩
  | .broken fault, room, values, _, taken => by contradiction

end

end Json

end Datalog
