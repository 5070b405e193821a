import Datalog.Json.Basic
import Datalog.Text.Quoted

/-!
# Writing JSON

A value is written either without any blanks, or with one item on each line, indented by two spaces
for every level.  Empty arrays and objects take no line of their own.
-/

namespace Datalog
namespace Json

/-- A number below sixteen to the fourth as four hexadecimal digits. -/
def fourHexDigits (number : Nat) : List Char :=
  let digits := Text.hexDigits number
  List.replicate (4 - digits.length) '0' ++ digits

def escapeChar (c : Char) : List Char :=
  if c = '"' then ['\\', '"']
  else if c = '\\' then ['\\', '\\']
  else if c = '\x08' then ['\\', 'b']
  else if c = '\x0c' then ['\\', 'f']
  else if c = '\n' then ['\\', 'n']
  else if c = '\r' then ['\\', 'r']
  else if c = '\t' then ['\\', 't']
  else if c.toNat < 0x20 then '\\' :: 'u' :: fourHexDigits c.toNat
  else [c]

def renderString (value : String) : String :=
  String.ofList ('"' :: value.toList.flatMap escapeChar ++ ['"'])

mutual

/-- A value without blanks. -/
def render : Json → String
  | .null => "null"
  | .bool value => if value then "true" else "false"
  | .int value => toString value
  | .real written => written
  | .str value => renderString value
  | .arr items => "[" ++ Text.join "," (renderItems items) ++ "]"
  | .obj members => "\x7b" ++ Text.join "," (renderMembers members) ++ "\x7d"

/-- The items of an array, each without blanks. -/
def renderItems : List Json → List String
  | [] => []
  | item :: items => render item :: renderItems items

/-- The members of an object, each without blanks. -/
def renderMembers : List (String × Json) → List String
  | [] => []
  | (key, value) :: members =>
      (renderString key ++ ":" ++ render value) :: renderMembers members

end

/-- The start of a line at some level. -/
def newLine (level : Nat) : String :=
  "\n" ++ String.ofList (List.replicate (2 * level) ' ')

/-- Lines between two brackets, one level deeper than these. -/
def bracketLines (level : Nat) (left right : String) : List String → String
  | [] => left ++ right
  | lines =>
      left ++ Text.join "," (lines.map (newLine (level + 1) ++ ·)) ++ newLine level ++ right

mutual

/-- A value with one item on each line. -/
def renderLines (level : Nat) : Json → String
  | .arr items => bracketLines level "[" "]" (renderItemLines (level + 1) items)
  | .obj members => bracketLines level "\x7b" "\x7d" (renderMemberLines (level + 1) members)
  | .null => render .null
  | .bool value => render (.bool value)
  | .int value => render (.int value)
  | .real written => render (.real written)
  | .str value => render (.str value)

/-- The items of an array, each with lines of its own. -/
def renderItemLines (level : Nat) : List Json → List String
  | [] => []
  | item :: items => renderLines level item :: renderItemLines level items

/-- The members of an object, each with lines of its own. -/
def renderMemberLines (level : Nat) : List (String × Json) → List String
  | [] => []
  | (key, value) :: members =>
      (renderString key ++ ": " ++ renderLines level value) :: renderMemberLines level members

end

end Json

end Datalog
