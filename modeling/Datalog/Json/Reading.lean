import Datalog.Json.Scan

/-!
# Reading JSON from the front

A text is accepted or refused from its front: when a text of the right form but the wrong shape goes
on with something malformed, the wrong shape is what counts if it comes first.  `Reading` therefore
keeps what a text says up to its first defect, and the consumer finds out which problem it meets
first.
-/

namespace Datalog
namespace Json

mutual

/-- A value as far as it can be read. -/
inductive Reading where
  | null
  | bool (value : Bool)
  | number (value : Except Fault Json) (skipped : Except Fault Unit)
  | str (value : Except Fault String) (skipped : Except Fault Unit)
  | arr (items : Items)
  | obj (members : Members)
  /-- No value can be read here. -/
  | broken (fault : Fault)

/-- The rest of an array as far as it can be read. -/
inductive Items where
  | closed
  | more (item : Reading) (rest : Items)
  /-- Neither another item nor the end of the array follows. -/
  | broken (fault : Fault)

/-- The rest of an object as far as it can be read. -/
inductive Members where
  | closed
  | more (key : Except Fault String) (keySkipped : Except Fault Unit) (value : Reading)
      (rest : Members)
  /-- Neither another member nor the end of the object follows. -/
  | broken (fault : Fault)

end

instance : Inhabited Reading := ⟨.null⟩

/-! ## From text -/

/-- A fixed word: its value if the text goes on with it. -/
def readWord (value : Reading) : (word : List Char) → List Char → Reading × List Char
  | [], text => (value, text)
  | _ :: _, [] => (.broken .ended, [])
  | c :: word, c' :: text => if c = c' then readWord value word text else (.broken .malformed, [])

/-- The rest of a text after a token that was skipped; nothing is left after a defect. -/
def restOf (rest : Except Fault (List Char)) : List Char :=
  match rest with
  | .ok text => text
  | .error _ => []

mutual

def readValue : (fuel : Nat) → List Char → Reading × List Char
  | 0, _ => (.broken .ended, [])
  | fuel + 1, text =>
      match skipBlanks text with
      | [] => (.broken .ended, [])
      | 'n' :: text => readWord .null "ull".toList text
      | 't' :: text => readWord (.bool true) "rue".toList text
      | 'f' :: text => readWord (.bool false) "alse".toList text
      | '"' :: text =>
          let token := scanString text
          (.str token.value (token.rest.map fun _ => ()), restOf token.rest)
      | '[' :: text =>
          let (items, rest) := readItems fuel true text
          (.arr items, rest)
      | '\x7b' :: text =>
          let (members, rest) := readMembers fuel true text
          (.obj members, rest)
      | c :: text =>
          if c = '-' || isDigit c then
            let token := scanNumber (c :: text)
            (.number token.value (token.rest.map fun _ => ()), restOf token.rest)
          else
            (.broken .malformed, [])

/-- Read the rest of an array; `first` tells whether no item came before. -/
def readItems : (fuel : Nat) → (first : Bool) → List Char → Items × List Char
  | 0, _, _ => (.broken .ended, [])
  | fuel + 1, first, text =>
      match skipBlanks text with
      | [] => (.broken .ended, [])
      | ']' :: rest => (.closed, rest)
      | c :: text =>
          if first then
            readItem fuel (c :: text)
          else if c = ',' then
            readItem fuel text
          else
            (.broken .malformed, [])

def readItem : (fuel : Nat) → List Char → Items × List Char
  | 0, _ => (.broken .ended, [])
  | fuel + 1, text =>
      let (item, text) := readValue fuel text
      let (rest, text) := readItems fuel false text
      (.more item rest, text)

/-- Read the rest of an object; `first` tells whether no member came before. -/
def readMembers : (fuel : Nat) → (first : Bool) → List Char → Members × List Char
  | 0, _, _ => (.broken .ended, [])
  | fuel + 1, first, text =>
      match skipBlanks text with
      | [] => (.broken .ended, [])
      | '\x7d' :: rest => (.closed, rest)
      | c :: text =>
          if first then
            readMember fuel (c :: text)
          else if c = ',' then
            readMember fuel text
          else
            (.broken .malformed, [])

def readMember : (fuel : Nat) → List Char → Members × List Char
  | 0, _ => (.broken .ended, [])
  | fuel + 1, text =>
      match skipBlanks text with
      | [] => (.broken .ended, [])
      | '"' :: text =>
          let key := scanString text
          let keySkipped := key.rest.map fun _ => ()
          match skipBlanks (restOf key.rest) with
          | [] => (.more key.value keySkipped (.broken .ended) .closed, [])
          | ':' :: text =>
              let (value, text) := readValue fuel text
              let (rest, text) := readMembers fuel false text
              (.more key.value keySkipped value rest, text)
          | _ => (.more key.value keySkipped (.broken .malformed) .closed, [])
      | _ => (.broken .malformed, [])

end

/-- A whole text: its value as far as it can be read, and whether only blanks follow it. -/
structure Document where
  value : Reading
  endsThere : Bool

/-- Read a whole text. -/
def Document.ofString (text : String) : Document :=
  let text := text.toList
  let (value, rest) := readValue (3 * text.length + 3) text
  { value, endsThere := (skipBlanks rest).isEmpty }

/-! ## To values -/

mutual

/-- The value of a reading that is complete and nests at most `room` arrays and objects. -/
def Reading.toJson (room : Nat) : Reading → Except Fault Json
  | .null => .ok .null
  | .bool value => .ok (.bool value)
  | .number value _ => value
  | .str value _ => value.map .str
  | .arr items =>
      match room with
      | 0 => .error .malformed
      | room + 1 => (items.toJson room).map .arr
  | .obj members =>
      match room with
      | 0 => .error .malformed
      | room + 1 => (members.toJson room).map .obj
  | .broken fault => .error fault

def Items.toJson (room : Nat) : Items → Except Fault (List Json)
  | .closed => .ok []
  | .more item rest => do
      let item ← item.toJson room
      let rest ← rest.toJson room
      .ok (item :: rest)
  | .broken fault => .error fault

def Members.toJson (room : Nat) : Members → Except Fault (List (String × Json))
  | .closed => .ok []
  | .more key _ value rest => do
      let key ← key
      let value ← value.toJson room
      let rest ← rest.toJson room
      .ok ((key, value) :: rest)
  | .broken fault => .error fault

end

mutual

/-- Skip a value: nesting, lone surrogates and magnitudes do not matter. -/
def Reading.skip : Reading → Except Fault Unit
  | .null | .bool _ => .ok ()
  | .number _ skipped | .str _ skipped => skipped
  | .arr items => items.skip
  | .obj members => members.skip
  | .broken fault => .error fault

def Items.skip : Items → Except Fault Unit
  | .closed => .ok ()
  | .more item rest => do
      item.skip
      rest.skip
  | .broken fault => .error fault

def Members.skip : Members → Except Fault Unit
  | .closed => .ok ()
  | .more _ keySkipped value rest => do
      keySkipped
      value.skip
      rest.skip
  | .broken fault => .error fault

end

mutual

/-- A value as it is read from a text that holds it completely. -/
def Reading.ofJson : Json → Reading
  | .null => .null
  | .bool value => .bool value
  | .int value => .number (.ok (.int value)) (.ok ())
  | .real written => .number (.ok (.real written)) (.ok ())
  | .str value => .str (.ok value) (.ok ())
  | .arr items => .arr (Items.ofJson items)
  | .obj members => .obj (Members.ofJson members)

def Items.ofJson : List Json → Items
  | [] => .closed
  | item :: rest => .more (Reading.ofJson item) (Items.ofJson rest)

def Members.ofJson : List (String × Json) → Members
  | [] => .closed
  | (key, value) :: rest => .more (.ok key) (.ok ()) (Reading.ofJson value) (Members.ofJson rest)

end

/-- The value that a text holds, if it nests at most `room` arrays and objects. -/
def parse (room : Nat) (text : String) : Except Fault Json := do
  let document := Document.ofString text
  let value ← document.value.toJson room
  if document.endsThere then .ok value else .error .malformed

end Json

end Datalog
