/-
Scanning JSON text.

Every scanner works on the characters that are left and returns those after what it read.

Main definitions:

* `Typeahead.Json.skipBlanks`, `Typeahead.Json.expect` — blanks and fixed words;
* `Typeahead.Json.scanString` — the characters of a string, escapes resolved;
* `Typeahead.Json.Numeral`, `Typeahead.Json.scanNumeral` — numbers, as they are written.
-/

import Typeahead.Json.Package

set_option relaxedAutoImplicit false
set_option autoImplicit false

namespace Typeahead

namespace Json

/-! ### Blanks and fixed words -/

/-- The characters that may stand between any two tokens. -/
def isBlank (c : Char) : Bool := c == ' ' || c == '\n' || c == '\t' || c == '\r'

/-- The characters from the next token on. -/
def skipBlanks (input : List Char) : List Char := input.dropWhile isBlank

/-- The characters after a fixed word. -/
def expect (word input : List Char) : Except Fault (List Char) :=
  if word.isPrefixOf input then .ok (input.drop word.length) else .error .malformed

/-! ### Strings -/

/-- The value of a hexadecimal digit. -/
def hexValue? (c : Char) : Option Nat :=
  if '0' ≤ c ∧ c ≤ '9' then some (c.toNat - '0'.toNat)
  else if 'a' ≤ c ∧ c ≤ 'f' then some (c.toNat - 'a'.toNat + 10)
  else if 'A' ≤ c ∧ c ≤ 'F' then some (c.toNat - 'A'.toNat + 10)
  else none

/-- The value of four hexadecimal digits. -/
def hexUnit? (a b c d : Char) : Option Nat :=
  match hexValue? a, hexValue? b, hexValue? c, hexValue? d with
  | some a, some b, some c, some d => some (((a * 16 + b) * 16 + c) * 16 + d)
  | _, _, _, _ => none

/-- Whether a unit is the first half of a pair. -/
def isHighSurrogate (unit : Nat) : Bool := decide (0xD800 ≤ unit ∧ unit ≤ 0xDBFF)

/-- Whether a unit is the second half of a pair. -/
def isLowSurrogate (unit : Nat) : Bool := decide (0xDC00 ≤ unit ∧ unit ≤ 0xDFFF)

/-- The character that a pair of units stands for. -/
def ofSurrogates (high low : Nat) : Char :=
  Char.ofNat (0x10000 + (high - 0xD800) * 0x400 + (low - 0xDC00))

/-- The character that a single letter after a backslash stands for. -/
def simpleEscape? : Char → Option Char
  | '"' => some '"'
  | '\\' => some '\\'
  | '/' => some '/'
  | 'b' => some '\x08'
  | 'f' => some '\x0c'
  | 'n' => some '\n'
  | 'r' => some '\r'
  | 't' => some '\t'
  | _ => none

/-- Whether a character must not stand in a string as it is. -/
def isControl (c : Char) : Bool := decide (c.toNat < 0x20)

/-- The characters of a string up to its closing quote, and those after it.  A surrogate that does
not stand in a pair has no character. -/
def scanString : List Char → Option (List Char × List Char)
  | [] => none
  | '"' :: rest => some ([], rest)
  | '\\' :: 'u' :: a :: b :: c :: d :: rest =>
      match hexUnit? a b c d with
      | none => none
      | some unit =>
          if isLowSurrogate unit then none
          else if isHighSurrogate unit then
            match rest with
            | '\\' :: 'u' :: a :: b :: c :: d :: rest =>
                match (hexUnit? a b c d).filter isLowSurrogate with
                | some low =>
                    (scanString rest).map fun text => (ofSurrogates unit low :: text.1, text.2)
                | none => none
            | _ => none
          else (scanString rest).map fun text => (Char.ofNat unit :: text.1, text.2)
  | '\\' :: c :: rest =>
      match simpleEscape? c with
      | some escaped => (scanString rest).map fun text => (escaped :: text.1, text.2)
      | none => none
  | c :: rest =>
      if isControl c then none else (scanString rest).map fun text => (c :: text.1, text.2)

/-- The characters after the closing quote of a string whose text does not matter: surrogates need
not come in pairs. -/
def skipString : List Char → Option (List Char)
  | [] => none
  | '"' :: rest => some rest
  | '\\' :: 'u' :: a :: b :: c :: d :: rest =>
      if (hexUnit? a b c d).isSome then skipString rest else none
  | '\\' :: c :: rest => if (simpleEscape? c).isSome then skipString rest else none
  | c :: rest => if isControl c then none else skipString rest

/-! ### Numbers -/

/-- A number as it is written: a sign, digits, and perhaps a fraction and a power of ten. -/
structure Numeral where
  negative : Bool
  digits : List Char
  fraction : Option (List Char) := none
  /-- The sign and the digits of the exponent. -/
  exponent : Option (Bool × List Char) := none
  deriving DecidableEq, Repr

/-- A run of digits, at least one. -/
def scanDigits (input : List Char) : Option (List Char × List Char) :=
  let digits := input.takeWhile Char.isDigit
  if digits.isEmpty then none else some (digits, input.dropWhile Char.isDigit)

/-- The digits before the point: no zero in front of others. -/
def scanWhole (input : List Char) : Option (List Char × List Char) :=
  (scanDigits input).filter fun scanned =>
    match scanned.1 with
    | '0' :: _ :: _ => false
    | _ => true

/-- The digits after a point, if there is one. -/
def scanFraction : List Char → Option (Option (List Char) × List Char)
  | '.' :: rest => (scanDigits rest).map fun scanned => (some scanned.1, scanned.2)
  | rest => some (none, rest)

/-- The digits after a sign, which is optional. -/
def scanSigned : List Char → Option ((Bool × List Char) × List Char)
  | '-' :: rest => (scanDigits rest).map fun scanned => ((true, scanned.1), scanned.2)
  | '+' :: rest => (scanDigits rest).map fun scanned => ((false, scanned.1), scanned.2)
  | rest => (scanDigits rest).map fun scanned => ((false, scanned.1), scanned.2)

/-- The exponent, if there is one. -/
def scanExponent : List Char → Option (Option (Bool × List Char) × List Char)
  | 'e' :: rest | 'E' :: rest => (scanSigned rest).map fun scanned => (some scanned.1, scanned.2)
  | rest => some (none, rest)

/-- A number without its sign. -/
def scanUnsigned (negative : Bool) (input : List Char) : Option (Numeral × List Char) :=
  (scanWhole input).bind fun whole =>
    (scanFraction whole.2).bind fun fraction =>
      (scanExponent fraction.2).map fun exponent =>
        (⟨negative, whole.1, fraction.1, exponent.1⟩, exponent.2)

/-- A number. -/
def scanNumeral : List Char → Option (Numeral × List Char)
  | '-' :: rest => scanUnsigned true rest
  | rest => scanUnsigned false rest

/-- The value of a run of decimal digits. -/
def digitsValue (digits : List Char) : Nat :=
  digits.foldl (fun value c => value * 10 + (c.toNat - '0'.toNat)) 0

namespace Numeral

/-- The integer that a number is, if it is written as one.  Minus zero is no integer. -/
def integer? (numeral : Numeral) : Option Int :=
  let value := digitsValue numeral.digits
  match numeral.fraction, numeral.exponent, numeral.negative with
  | none, none, false => some value
  | none, none, true => if value = 0 then none else some (-value)
  | _, _, _ => none

/-- The digits of a number read as one integer. -/
def mantissa (numeral : Numeral) : Nat :=
  digitsValue (numeral.digits ++ numeral.fraction.getD [])

/-- The power of ten that goes with the mantissa. -/
def power (numeral : Numeral) : Int :=
  let written : Int := match numeral.exponent with
    | none => 0
    | some (true, digits) => -digitsValue digits
    | some (false, digits) => digitsValue digits
  written - (numeral.fraction.getD []).length

/-- The numbers from here on are too large for a binary number of 64 bits: the greatest one and
half a unit of its last place. -/
def leastTooLarge : Nat := Nat.pow 2 1024 - Nat.pow 2 970

/-- The number of decimal digits of the greatest numbers of 64 bits. -/
def greatestLength : Int := 309

/-- Whether a number is too large for a binary number of 64 bits.  The number of its digits before
the point settles this unless it is that of the greatest ones. -/
def isTooLarge (numeral : Numeral) : Bool :=
  let mantissa := numeral.mantissa
  let power := numeral.power
  let length : Int := (Nat.toDigits 10 mantissa).length + power
  if mantissa = 0 ∨ length < greatestLength then false
  else if greatestLength < length then true
  else decide (leastTooLarge * Nat.pow 10 (-power).toNat ≤ mantissa * Nat.pow 10 power.toNat)

end Numeral

/-- A number that is not too large, as an integer if it is one. -/
def readNumber (input : List Char) : Scanned (Option Int) :=
  match scanNumeral input with
  | some (numeral, rest) =>
      if numeral.isTooLarge then .error .malformed else .ok (numeral.integer?, rest)
  | none => .error .malformed

end Json

end Typeahead
