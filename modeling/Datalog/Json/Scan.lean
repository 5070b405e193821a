import Datalog.Json.Basic

/-!
# Tokens of JSON texts

A string or a number may be read for its value or only be skipped, and skipping is more lenient: it
accepts lone surrogate escapes and numbers of any magnitude.  A scanned token therefore carries
both results.
-/

namespace Datalog
namespace Json

/-- A token read for its value, together with what follows it when it is only skipped. -/
structure Token (α : Type) where
  value : Except Fault α
  rest : Except Fault (List Char)

/-- Whether a character may stand between tokens. -/
def isBlank (c : Char) : Bool :=
  c = ' ' || c = '\t' || c = '\n' || c = '\r'

/-- A text without the blanks it starts with. -/
def skipBlanks (text : List Char) : List Char :=
  text.dropWhile isBlank

/-! ## Strings -/

def hexDigit? (c : Char) : Option Nat :=
  if '0' ≤ c && c ≤ '9' then some (c.toNat - '0'.toNat)
  else if 'a' ≤ c && c ≤ 'f' then some (c.toNat - 'a'.toNat + 10)
  else if 'A' ≤ c && c ≤ 'F' then some (c.toNat - 'A'.toNat + 10)
  else none

def hexNumber? (digits : List Char) : Option Nat :=
  digits.foldlM (fun number c => (hexDigit? c).map (16 * number + ·)) 0

/-- Whether a text has at least a given number of bytes in UTF-8. -/
def hasBytes : (count : Nat) → List Char → Bool
  | 0, _ => true
  | _ + 1, [] => false
  | count + 1, c :: text => hasBytes (count + 1 - c.utf8Size) text

/-- The first four characters of a text as a hexadecimal number.  A text of fewer than four bytes
has ended too early, whatever it holds. -/
def hexEscape (text : List Char) : Except Fault Nat :=
  if hasBytes 4 text then
    match hexNumber? (text.take 4) with
    | some number => .ok number
    | none => .error .malformed
  else
    .error .ended

/-- The character of a one-letter escape. -/
def simpleEscape? : Char → Option Char
  | '"' => some '"'
  | '\\' => some '\\'
  | '/' => some '/'
  | 'b' => some '\x08'
  | 'f' => some '\x0c'
  | 'n' => some '\n'
  | 'r' => some '\r'
  | 't' => some '\t'
  | _ => none

/-- Whether a number is the first half of a surrogate pair. -/
def isLeadingSurrogate (number : Nat) : Bool :=
  0xD800 ≤ number && number ≤ 0xDBFF

/-- Whether a number is the second half of a surrogate pair. -/
def isTrailingSurrogate (number : Nat) : Bool :=
  0xDC00 ≤ number && number ≤ 0xDFFF

/-- The code point of a surrogate pair. -/
def surrogatePair (leading trailing : Nat) : Nat :=
  (leading - 0xD800) * 0x400 + (trailing - 0xDC00) + 0x10000

/-- What comes after the escape of a leading surrogate: the escape of a trailing one and the text
after it. -/
def trailingEscape : List Char → Except Fault (Nat × List Char)
  | [] => .error .ended
  | ['\\'] => .error .ended
  | '\\' :: 'u' :: text => do
      let number ← hexEscape text
      if isTrailingSurrogate number then .ok (number, text.drop 4) else .error .malformed
  | _ => .error .malformed

/-- The character of a `\u` escape, given the text after the `u`, with the rest of the text. -/
def unicodeEscape (text : List Char) : Except Fault (Char × List Char) := do
  let number ← hexEscape text
  if isTrailingSurrogate number then
    .error .malformed
  else if isLeadingSurrogate number then
    let (trailing, rest) ← trailingEscape (text.drop 4)
    .ok (Char.ofNat (surrogatePair number trailing), rest)
  else
    .ok (Char.ofNat number, text.drop 4)

/-- The characters of a string up to its closing quote, and the rest of the text. -/
def stringValue : (fuel : Nat) → List Char → Except Fault (List Char × List Char)
  | 0, _ => .error .ended
  | _ + 1, [] => .error .ended
  | _ + 1, '"' :: rest => .ok ([], rest)
  | _ + 1, ['\\'] => .error .ended
  | fuel + 1, '\\' :: 'u' :: text => do
      let (c, text) ← unicodeEscape text
      let (value, rest) ← stringValue fuel text
      .ok (c :: value, rest)
  | fuel + 1, '\\' :: letter :: text =>
      match simpleEscape? letter with
      | none => .error .malformed
      | some c => do
          let (value, rest) ← stringValue fuel text
          .ok (c :: value, rest)
  | fuel + 1, c :: text =>
      if c.toNat < 0x20 then
        .error .malformed
      else do
        let (value, rest) ← stringValue fuel text
        .ok (c :: value, rest)

/-- The rest of the text after a string that is skipped. -/
def skipString : (fuel : Nat) → List Char → Except Fault (List Char)
  | 0, _ => .error .ended
  | _ + 1, [] => .error .ended
  | _ + 1, '"' :: rest => .ok rest
  | _ + 1, ['\\'] => .error .ended
  | fuel + 1, '\\' :: 'u' :: text => do
      let _ ← hexEscape text
      skipString fuel (text.drop 4)
  | fuel + 1, '\\' :: letter :: text =>
      match simpleEscape? letter with
      | none => .error .malformed
      | some _ => skipString fuel text
  | fuel + 1, c :: text =>
      if c.toNat < 0x20 then .error .malformed else skipString fuel text

/-- Scan a string, given the text after its opening quote. -/
def scanString (text : List Char) : Token String where
  value := (stringValue (text.length + 1) text).map fun (value, _) => String.ofList value
  rest := skipString (text.length + 1) text

/-! ## Numbers -/

def isDigit (c : Char) : Bool :=
  '0' ≤ c && c ≤ '9'

def decimal (digits : List Char) : Nat :=
  digits.foldl (fun number c => 10 * number + (c.toNat - '0'.toNat)) 0

/-- The parts of a number as written: whole digits, digits after the point and exponent. -/
structure NumberParts where
  negative : Bool
  whole : List Char
  fraction : Option (List Char) := none
  /-- Whether the exponent is negative, and its digits. -/
  exponent : Option (Bool × List Char) := none

/-- A malformed number that is cut off by the end of the text has ended too early if it is read
for its value. -/
def brokenNumber (text : List Char) : Token NumberParts where
  value := .error (if text.isEmpty then .ended else .malformed)
  rest := .error .malformed

def scanExponent (parts : NumberParts) (text : List Char) : Token NumberParts :=
  match text with
  | 'e' :: text | 'E' :: text =>
      let (negative, text) :=
        match text with
        | '+' :: text => (false, text)
        | '-' :: text => (true, text)
        | text => (false, text)
      let digits := text.takeWhile isDigit
      if digits.isEmpty then
        brokenNumber text
      else
        { value := .ok { parts with exponent := some (negative, digits) }
          rest := .ok (text.drop digits.length) }
  | text => { value := .ok parts, rest := .ok text }

/-- Scan the digits after the decimal point, if there is one, and the exponent. -/
def scanFraction (parts : NumberParts) (text : List Char) : Token NumberParts :=
  match text with
  | '.' :: text =>
      let digits := text.takeWhile isDigit
      if digits.isEmpty then
        brokenNumber text
      else
        scanExponent { parts with fraction := some digits } (text.drop digits.length)
  | text => scanExponent parts text

/-- Scan a number after its sign.  Only a lone zero may start with zero. -/
def scanUnsigned (negative : Bool) (text : List Char) : Token NumberParts :=
  let digits := text.takeWhile isDigit
  if digits.isEmpty then
    brokenNumber text
  else if digits.head? = some '0' && 1 < digits.length then
    { value := .error .malformed, rest := .error .malformed }
  else
    scanFraction { negative, whole := digits } (text.drop digits.length)

/-- Digits put after those of a number for as long as the result fits a machine word, and how many
there were. -/
def appendDigits (number : Nat) : List Char → Nat × Nat
  | [] => (number, 0)
  | c :: digits =>
      let longer := 10 * number + (c.toNat - '0'.toNat)
      if longer < UInt64.size then
        let (longest, count) := appendDigits longer digits
        (longest, count + 1)
      else
        (number, 0)

/-- An integer rounded to the 53 binary digits of a double, a tie to the even neighbour. -/
def roundToDouble (number : Nat) : Nat :=
  let unit := Nat.pow 2 (number.log2 - 52)
  let below := number / unit
  let rest := 2 * (number % unit)
  if unit < rest || (rest = unit && below % 2 = 1) then (below + 1) * unit else below * unit

/-- Half a unit in the last place above the largest double: what reaches this magnitude rounds to
infinity. -/
def doubleOverflow : Nat := Nat.pow 2 1024 - Nat.pow 2 970

/-- Whether a machine word scaled by a power of ten is too large for a double.  The word and the
power are each rounded to a double before they are multiplied. -/
def isTooLarge (word : Nat) (exponent : Int) : Bool :=
  if exponent ≤ 308 then
    0 ≤ exponent
      && doubleOverflow ≤ roundToDouble word * roundToDouble (Nat.pow 10 exponent.toNat)
  else
    word ≠ 0

/-- Whether the magnitude of a number is too large for a double.  Digits beyond a machine word count
as zeros before the point and do not count after it. -/
def NumberParts.isTooLarge (parts : NumberParts) : Bool :=
  let (word, wholeCount) := appendDigits 0 parts.whole
  let (word, fractionCount) := appendDigits word (parts.fraction.getD [])
  let exponent : Int :=
    match parts.exponent with
    | none => 0
    | some (negative, digits) => if negative then -(decimal digits : Int) else decimal digits
  Json.isTooLarge word (exponent + (parts.whole.length - wholeCount : Nat) - fractionCount)

/-- The value of a number, unless its magnitude is too large for a double. -/
def NumberParts.toJson (parts : NumberParts) : Except Fault Json :=
  let written :=
    (if parts.negative then "-" else "") ++ String.ofList parts.whole
      ++ (match parts.fraction with
          | none => ""
          | some digits => "." ++ String.ofList digits)
      ++ (match parts.exponent with
          | none => ""
          | some (negative, digits) => (if negative then "e-" else "e") ++ String.ofList digits)
  let magnitude := decimal parts.whole
  if parts.isTooLarge then
    .error .malformed
  else if parts.fraction.isSome || parts.exponent.isSome then
    .ok (.real written)
  else if parts.negative then
    if 0 < magnitude && Int64.minValue.toInt ≤ -magnitude then .ok (.int (-magnitude))
    else .ok (.real written)
  else
    if magnitude < UInt64.size then .ok (.int magnitude) else .ok (.real written)

/-- Scan a number, sign included. -/
def scanNumber (text : List Char) : Token Json :=
  let parts :=
    match text with
    | '-' :: text => scanUnsigned true text
    | text => scanUnsigned false text
  { value := parts.value.bind NumberParts.toJson, rest := parts.rest }

end Json

end Datalog
