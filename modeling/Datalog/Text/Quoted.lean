import Datalog.Text.Printable

/-!
# Quoted text

A text is shown between double quotes.  The quote, the backslash and four control characters have
short escapes, every other hidden character is shown by its code point in lower-case hexadecimal,
and plain characters stand for themselves.
-/

namespace Datalog
namespace Text

/-- The digits of a number below sixteen, and of those above it, in lower-case hexadecimal. -/
def hexDigits (number : Nat) : List Char :=
  Nat.toDigits 16 number

/-- The written form of one character inside a quoted text. -/
def escapeChar (c : Char) : List Char :=
  if c = '"' then ['\\', '"']
  else if c = '\\' then ['\\', '\\']
  else if c = '\n' then ['\\', 'n']
  else if c = '\r' then ['\\', 'r']
  else if c = '\t' then ['\\', 't']
  else if c = '\x00' then ['\\', '0']
  else if isPlain c then [c]
  else ['\\', 'u', '\x7b'] ++ hexDigits c.toNat ++ ['\x7d']

/-- A text between double quotes, with every character that needs it escaped. -/
def quote (text : String) : String :=
  String.ofList ('"' :: text.toList.flatMap escapeChar ++ ['"'])

def join (separator : String) : List String → String
  | [] => ""
  | [text] => text
  | text :: rest => text ++ separator ++ join separator rest

def commaSeparated (texts : List String) : String :=
  join ", " texts

/-- Several texts joined by commas, in parentheses. -/
def parenthesized (texts : List String) : String :=
  "(" ++ commaSeparated texts ++ ")"

end Text
end Datalog
