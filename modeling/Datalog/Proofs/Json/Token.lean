import Datalog.Json.Printer
import Datalog.Json.Scan
import Mathlib.Data.List.Basic

/-!
# Written tokens are read back

A string is written with escapes where they are needed, an integer by its decimal digits.  Scanning what
was written gives the string or the integer, and the text that follows it.
-/

namespace Datalog

namespace Json

/-! ## Strings -/

/-- The four digits of a control character's escape. -/
theorem hexEscape_control {number : Nat} (control : number < 0x20) :
    (fourHexDigits number).length = 4 ∧
      hexEscape (fourHexDigits number) = .ok number ∧ isLeadingSurrogate number = false ∧
        isTrailingSurrogate number = false := by
  have every : ∀ number : Fin 0x20, (fourHexDigits number).length = 4 ∧
      hexEscape (fourHexDigits number) = .ok (number : Nat) ∧
        isLeadingSurrogate number = false ∧ isTrailingSurrogate number = false := by
    decide
  exact every ⟨number, control⟩

theorem hasBytes_append (count : Nat) (text rest : List Char) (enough : hasBytes count text = true) :
    hasBytes count (text ++ rest) = true := by
  fun_induction hasBytes count text with
  | case1 => simp [hasBytes]
  | case2 => contradiction
  | case3 count c text ih =>
      simp only [List.cons_append, hasBytes]
      exact ih enough

theorem hexEscape_append {text : List Char} {number : Nat} (rest : List Char)
    (length : text.length = 4) (escaped : hexEscape text = .ok number) :
    hexEscape (text ++ rest) = .ok number := by
  unfold hexEscape at escaped ⊢
  split at escaped
  · next enough =>
      rw [if_pos (hasBytes_append 4 text rest enough), List.take_append_of_le_length (Nat.le_of_eq length.symm)]
      exact escaped
  · contradiction

theorem unicodeEscape_control {c : Char} (control : c.toNat < 0x20) (rest : List Char) :
    unicodeEscape (fourHexDigits c.toNat ++ rest) = .ok (c, rest) := by
  obtain ⟨length, escaped, notLeading, notTrailing⟩ := hexEscape_control control
  have dropped : (fourHexDigits c.toNat ++ rest).drop 4 = rest := by
    rw [← length, List.drop_left]
  rw [unicodeEscape, hexEscape_append rest length escaped]
  simp [bind, Except.bind, notLeading, notTrailing, dropped]

theorem stringValue_visible {c : Char} (noQuote : c ≠ '"') (noBackslash : c ≠ '\\')
    (visible : 0x20 ≤ c.toNat) (fuel : Nat) (rest : List Char) :
    stringValue (fuel + 1) (c :: rest) =
      (stringValue fuel rest).map fun (value, rest) => (c :: value, rest) := by
  rw [stringValue, if_neg (Nat.not_lt.mpr visible)]
  · cases stringValue fuel rest <;> rfl
  · exact noQuote
  · exact fun same _ => noBackslash same
  · exact fun _ same _ => noBackslash same
  · exact fun _ _ same _ => noBackslash same

theorem skipString_visible {c : Char} (noQuote : c ≠ '"') (noBackslash : c ≠ '\\')
    (visible : 0x20 ≤ c.toNat) (fuel : Nat) (rest : List Char) :
    skipString (fuel + 1) (c :: rest) = skipString fuel rest := by
  rw [skipString, if_neg (Nat.not_lt.mpr visible)]
  · exact noQuote
  · exact fun same _ => noBackslash same
  · exact fun _ same _ => noBackslash same
  · exact fun _ _ same _ => noBackslash same

/-- The three written forms of a character. -/
theorem escapeChar_cases (c : Char) :
    (∃ letter, letter ≠ 'u' ∧ simpleEscape? letter = some c ∧ escapeChar c = ['\\', letter]) ∨
      (c.toNat < 0x20 ∧ escapeChar c = '\\' :: 'u' :: fourHexDigits c.toNat) ∨
        (c ≠ '"' ∧ c ≠ '\\' ∧ 0x20 ≤ c.toNat ∧ escapeChar c = [c]) := by
  unfold escapeChar
  by_cases quote : c = '"'
  · exact .inl ⟨'"', by decide, by rw [quote]; rfl, by rw [if_pos quote]⟩
  by_cases backslash : c = '\\'
  · exact .inl ⟨'\\', by decide, by rw [backslash]; rfl, by rw [if_neg quote, if_pos backslash]⟩
  rw [if_neg quote, if_neg backslash]
  split
  · next same => exact .inl ⟨'b', by decide, by rw [same]; rfl, rfl⟩
  split
  · next same => exact .inl ⟨'f', by decide, by rw [same]; rfl, rfl⟩
  split
  · next same => exact .inl ⟨'n', by decide, by rw [same]; rfl, rfl⟩
  split
  · next same => exact .inl ⟨'r', by decide, by rw [same]; rfl, rfl⟩
  split
  · next same => exact .inl ⟨'t', by decide, by rw [same]; rfl, rfl⟩
  split
  · next control => exact .inr (.inl ⟨control, rfl⟩)
  · next visible => exact .inr (.inr ⟨quote, backslash, Nat.not_lt.mp visible, rfl⟩)

/-- An escape is one step of reading a string. -/
theorem stringValue_escapeChar (fuel : Nat) (c : Char) (rest : List Char) :
    stringValue (fuel + 1) (escapeChar c ++ rest) =
      (stringValue fuel rest).map fun (value, rest) => (c :: value, rest) := by
  rcases escapeChar_cases c with ⟨letter, notHex, escaped, written⟩ | ⟨control, written⟩ |
    ⟨noQuote, noBackslash, visible, written⟩
  · rw [written]
    simp only [List.cons_append, List.nil_append, stringValue, escaped]
    cases stringValue fuel rest <;> rfl
  · rw [written]
    simp only [List.cons_append, stringValue, unicodeEscape_control control, bind, Except.bind]
    cases stringValue fuel rest <;> rfl
  · rw [written]
    exact stringValue_visible noQuote noBackslash visible fuel rest

theorem skipString_escapeChar (fuel : Nat) (c : Char) (rest : List Char) :
    skipString (fuel + 1) (escapeChar c ++ rest) = skipString fuel rest := by
  rcases escapeChar_cases c with ⟨letter, notHex, escaped, written⟩ | ⟨control, written⟩ |
    ⟨noQuote, noBackslash, visible, written⟩
  · rw [written]
    simp only [List.cons_append, List.nil_append, skipString, escaped]
  · obtain ⟨length, escaped, -, -⟩ := hexEscape_control control
    have dropped : (fourHexDigits c.toNat ++ rest).drop 4 = rest := by
      rw [← length, List.drop_left]
    rw [written]
    simp only [List.cons_append, skipString, hexEscape_append rest length escaped, dropped]
    rfl
  · rw [written]
    exact skipString_visible noQuote noBackslash visible fuel rest

theorem length_escapeChar_pos (c : Char) : 0 < (escapeChar c).length := by
  rcases escapeChar_cases c with ⟨letter, -, -, written⟩ | ⟨-, written⟩ | ⟨-, -, -, written⟩
  all_goals simp [written]

/-- The characters of a written string are read up to its closing quote. -/
theorem stringValue_escaped {fuel : Nat} {chars : List Char} (rest : List Char)
    (enough : chars.length < fuel) :
    stringValue fuel (chars.flatMap escapeChar ++ '"' :: rest) = .ok (chars, rest) := by
  induction chars generalizing fuel with
  | nil =>
      obtain ⟨fuel, rfl⟩ := Nat.exists_eq_succ_of_ne_zero (Nat.ne_zero_of_lt enough)
      rfl
  | cons c chars ih =>
      obtain ⟨fuel, rfl⟩ := Nat.exists_eq_succ_of_ne_zero (Nat.ne_zero_of_lt enough)
      have left : chars.length < fuel := Nat.lt_of_succ_lt_succ enough
      rw [List.flatMap_cons, List.append_assoc, stringValue_escapeChar, ih left]
      rfl

theorem skipString_escaped {fuel : Nat} {chars : List Char} (rest : List Char)
    (enough : chars.length < fuel) :
    skipString fuel (chars.flatMap escapeChar ++ '"' :: rest) = .ok rest := by
  induction chars generalizing fuel with
  | nil =>
      obtain ⟨fuel, rfl⟩ := Nat.exists_eq_succ_of_ne_zero (Nat.ne_zero_of_lt enough)
      rfl
  | cons c chars ih =>
      obtain ⟨fuel, rfl⟩ := Nat.exists_eq_succ_of_ne_zero (Nat.ne_zero_of_lt enough)
      have left : chars.length < fuel := Nat.lt_of_succ_lt_succ enough
      rw [List.flatMap_cons, List.append_assoc, skipString_escapeChar, ih left]

theorem length_le_escaped (chars : List Char) :
    chars.length ≤ (chars.flatMap escapeChar).length := by
  induction chars with
  | nil => simp
  | cons c chars ih =>
      have written := length_escapeChar_pos c
      rw [List.flatMap_cons, List.length_append, List.length_cons]
      omega

/-- Scanning a written string gives the string and what follows its closing quote. -/
theorem scanString_escaped (value : String) (rest : List Char) :
    scanString (value.toList.flatMap escapeChar ++ '"' :: rest) =
      { value := .ok value, rest := .ok rest } := by
  have short := length_le_escaped value.toList
  have enough : value.toList.length <
      (value.toList.flatMap escapeChar ++ '"' :: rest).length + 1 := by
    simp only [List.length_append, List.length_cons]
    omega
  simp only [scanString, stringValue_escaped rest enough, skipString_escaped rest enough,
    Except.map, String.ofList_toList]

/-! ## Integers -/

/-- Whether a text does not go on with what could belong to a number. -/
def endsNumber : List Char → Bool
  | [] => true
  | c :: _ => !isDigit c && c ≠ '.' && c ≠ 'e' && c ≠ 'E'

theorem isDigit_of_mem_toDigits {number : Nat} {c : Char} (member : c ∈ Nat.toDigits 10 number) :
    isDigit c = true := by
  have digit := Nat.isDigit_of_mem_toDigits (by decide) (by decide) member
  simp only [Char.isDigit, Bool.and_eq_true, decide_eq_true_eq] at digit
  simp only [isDigit, Bool.and_eq_true, decide_eq_true_eq]
  exact digit

theorem exists_toDigits_cons (number : Nat) :
    ∃ first others, Nat.toDigits 10 number = first :: others ∧ isDigit first = true := by
  have notEmpty : Nat.toDigits 10 number ≠ [] := Nat.toDigits_ne_nil
  obtain ⟨first, others, digits⟩ := List.exists_cons_of_ne_nil notEmpty
  exact ⟨first, others, digits, isDigit_of_mem_toDigits (digits ▸ List.mem_cons_self)⟩

theorem decimal_toDigits (number : Nat) : decimal (Nat.toDigits 10 number) = number :=
  Nat.ofDigitChars_ten_toDigits

theorem head?_toDigits {number : Nat} (positive : 0 < number) :
    (Nat.toDigits 10 number).head? ≠ some '0' := by
  induction number using Nat.strongRecOn with
  | ind number ih =>
      by_cases small : number < 10
      · have every : ∀ digit : Fin 10, 0 < digit.val → digit.val.digitChar ≠ '0' := by decide
        rw [Nat.toDigits_of_lt_base small, List.head?_cons]
        exact fun same => every ⟨number, small⟩ positive (Option.some.inj same)
      · have atLeast : 10 ≤ number := Nat.not_lt.mp small
        have shorter := ih (number / 10) (by omega) (by omega)
        rw [Nat.toDigits_of_base_le (by decide) atLeast]
        cases digits : Nat.toDigits 10 (number / 10) with
        | nil => exact absurd digits Nat.toDigits_ne_nil
        | cons first others => simpa [digits] using shorter

theorem takeWhile_toDigits (number : Nat) {rest : List Char} (ends : endsNumber rest = true) :
    (Nat.toDigits 10 number ++ rest).takeWhile isDigit = Nat.toDigits 10 number := by
  rw [List.takeWhile_append_of_pos fun c member => isDigit_of_mem_toDigits member]
  cases rest with
  | nil => simp
  | cons c rest =>
      simp only [endsNumber, Bool.and_eq_true, Bool.not_eq_true'] at ends
      simp [ends.1.1.1]

theorem scanFraction_of_ends (parts : NumberParts) {rest : List Char}
    (ends : endsNumber rest = true) :
    scanFraction parts rest = { value := .ok parts, rest := .ok rest } := by
  cases rest with
  | nil => rfl
  | cons c rest =>
      simp only [endsNumber, Bool.and_eq_true, decide_eq_true_eq] at ends
      obtain ⟨⟨⟨-, noPoint⟩, noLower⟩, noUpper⟩ := ends
      rw [scanFraction.eq_def]
      split <;> simp_all
      rw [scanExponent.eq_def]
      split <;> simp_all

/-- Decimal digits are scanned up to their end. -/
theorem scanUnsigned_toDigits (negative : Bool) (number : Nat) {rest : List Char}
    (ends : endsNumber rest = true) :
    scanUnsigned negative (Nat.toDigits 10 number ++ rest) =
      { value := .ok { negative, whole := Nat.toDigits 10 number }, rest := .ok rest } := by
  have notEmpty : (Nat.toDigits 10 number).isEmpty = false := by simp
  have noLeadingZero : ((Nat.toDigits 10 number).head? = some '0' &&
      1 < (Nat.toDigits 10 number).length) = false := by
    by_cases positive : 0 < number
    · simp [head?_toDigits positive]
    · obtain rfl : number = 0 := by omega
      simp
  simp only [scanUnsigned, takeWhile_toDigits number ends, notEmpty, noLeadingZero, List.drop_left]
  exact scanFraction_of_ends _ ends

theorem roundToDouble_le (number : Nat) : roundToDouble number ≤ 2 * number + 1 := by
  have power : Nat.pow 2 (number.log2 - 52) ≤ number + 1 := by
    by_cases zero : number = 0
    · subst zero
      decide
    · calc
        2 ^ (number.log2 - 52) ≤ 2 ^ number.log2 := Nat.pow_le_pow_right (by decide) (Nat.sub_le ..)
        _ ≤ number := Nat.log2_self_le zero
        _ ≤ number + 1 := Nat.le_succ number
  have below : number / Nat.pow 2 (number.log2 - 52) * Nat.pow 2 (number.log2 - 52) ≤ number :=
    Nat.div_mul_le_self ..
  unfold roundToDouble
  simp only
  split
  · rw [Nat.add_mul, Nat.one_mul]
    omega
  · omega

/-- A number that fits a machine word is no infinity. -/
theorem isTooLarge_word {number : Nat} (fits : number < UInt64.size) :
    Json.isTooLarge number 0 = false := by
  have overflow : 2 * UInt64.size ≤ doubleOverflow := by decide +kernel
  have one : roundToDouble (Nat.pow 10 (Int.toNat 0)) = 1 := by decide
  have rounded := roundToDouble_le number
  simp only [Json.isTooLarge, one]
  simp
  omega

theorem le_ofDigitChars (digits : List Char) (number : Nat) :
    number ≤ Nat.ofDigitChars 10 digits number := by
  induction digits generalizing number with
  | nil => simp
  | cons c digits ih =>
      rw [Nat.ofDigitChars_cons]
      have step := ih (10 * number + (c.toNat - '0'.toNat))
      omega

/-- As long as the number fits a machine word all digits are put after it. -/
theorem appendDigits_of_fits {digits : List Char} {number : Nat}
    (fits : Nat.ofDigitChars 10 digits number < UInt64.size) :
    appendDigits number digits = (Nat.ofDigitChars 10 digits number, digits.length) := by
  induction digits generalizing number with
  | nil => simp [appendDigits]
  | cons c digits ih =>
      rw [Nat.ofDigitChars_cons] at fits ⊢
      have longer := Nat.lt_of_le_of_lt (le_ofDigitChars digits _) fits
      simp only [appendDigits, if_pos longer, ih fits, List.length_cons]

/-- The integers that are read exactly. -/
def isExact (value : Int) : Bool :=
  Int64.minValue.toInt ≤ value && value < UInt64.size

theorem isTooLarge_toDigits (negative : Bool) {number : Nat} (fits : number < UInt64.size) :
    ({ negative, whole := Nat.toDigits 10 number } : NumberParts).isTooLarge = false := by
  have whole : appendDigits 0 (Nat.toDigits 10 number) = (number, (Nat.toDigits 10 number).length) := by
    rw [appendDigits_of_fits] <;> rw [Nat.ofDigitChars_ten_toDigits]
    exact fits
  simp only [NumberParts.isTooLarge, whole, Option.getD_none, appendDigits]
  simpa using isTooLarge_word fits

theorem ne_of_isDigit {c d : Char} (digit : isDigit c = true) (notDigit : isDigit d = false) :
    c ≠ d := by
  intro same
  rw [same, notDigit] at digit
  contradiction

theorem scanNumber_natural {number : Nat} (fits : number < UInt64.size) {rest : List Char}
    (ends : endsNumber rest = true) :
    scanNumber (Nat.toDigits 10 number ++ rest) =
      { value := .ok (.int number), rest := .ok rest } := by
  have noSign : ∀ text, Nat.toDigits 10 number ++ rest ≠ '-' :: text := by
    intro text same
    obtain ⟨first, others, digits, digit⟩ := exists_toDigits_cons number
    rw [digits] at same
    exact ne_of_isDigit digit (by decide) (List.cons.inj same).1
  have scanned := scanUnsigned_toDigits false number ends
  unfold scanNumber
  split
  · next same => exact absurd same (noSign _)
  · rw [scanned]
    simp only [Except.bind, NumberParts.toJson, isTooLarge_toDigits false fits, decimal_toDigits,
      if_pos fits]
    rfl

theorem scanNumber_negative {number : Nat} (positive : 0 < number)
    (fits : Int64.minValue.toInt ≤ -number) {rest : List Char} (ends : endsNumber rest = true) :
    scanNumber ('-' :: Nat.toDigits 10 number ++ rest) =
      { value := .ok (.int (-number)), rest := .ok rest } := by
  have least : Int64.minValue.toInt = -(2 ^ 63) := by decide
  have fitsWord : number < UInt64.size := by
    have size : UInt64.size = 2 ^ 64 := rfl
    omega
  simp only [List.cons_append, scanNumber, scanUnsigned_toDigits true number ends, Except.bind,
    NumberParts.toJson, isTooLarge_toDigits true fitsWord, decimal_toDigits]
  simp [positive]
  omega

/-- Scanning the decimal digits of an integer gives the integer. -/
theorem scanNumber_toString {value : Int} (exact : isExact value = true) {rest : List Char}
    (ends : endsNumber rest = true) :
    scanNumber ((toString value).toList ++ rest) =
      { value := .ok (.int value), rest := .ok rest } := by
  simp only [isExact, Bool.and_eq_true, decide_eq_true_eq] at exact
  obtain ⟨notBelow, notAbove⟩ := exact
  cases value with
  | ofNat number =>
      have written : (toString (Int.ofNat number)).toList = Nat.toDigits 10 number :=
        Nat.toList_repr
      rw [written]
      exact scanNumber_natural (Int.ofNat_lt.mp notAbove) ends
  | negSucc number =>
      have written : (toString (Int.negSucc number)).toList = '-' :: Nat.toDigits 10 (number + 1) := by
        simp [toString, Int.repr]
      rw [written]
      exact scanNumber_negative (Nat.succ_pos number) notBelow ends

end Json

end Datalog
