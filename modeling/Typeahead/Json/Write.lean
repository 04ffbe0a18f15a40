/-
Writing JSON text.

Main definitions:

* `Typeahead.Json.writeString`, `Typeahead.Json.writeStrings` — strings and lists of them;
* `Typeahead.Json.writeInt`, `Typeahead.Json.writeBool` — numbers and truth values;
* `Typeahead.Json.writeObject` — objects of values that are written.
-/

import Typeahead.Json.Scan

set_option relaxedAutoImplicit false
set_option autoImplicit false

namespace Typeahead

namespace Json

/-- The hexadecimal digit of a value below sixteen. -/
def hexDigit (value : Nat) : Char := Nat.digitChar value

/-- A character as it stands in a string: quotes, backslashes and control characters are
escaped. -/
def writeChar (c : Char) : List Char :=
  match c with
  | '"' => ['\\', '"']
  | '\\' => ['\\', '\\']
  | '\x08' => ['\\', 'b']
  | '\x0c' => ['\\', 'f']
  | '\n' => ['\\', 'n']
  | '\r' => ['\\', 'r']
  | '\t' => ['\\', 't']
  | c =>
      if isControl c then
        ['\\', 'u', '0', '0', hexDigit (c.toNat / 16), hexDigit (c.toNat % 16)]
      else [c]

/-- A string with its quotes. -/
def writeString (text : String) : List Char := '"' :: (text.toList.flatMap writeChar ++ ['"'])

/-- Texts with commas between them. -/
def separate : List (List Char) → List Char
  | [] => []
  | [item] => item
  | item :: items => item ++ ',' :: separate items

/-- A list of strings. -/
def writeStrings (texts : List String) : List Char :=
  '[' :: (separate (texts.map writeString) ++ [']'])

/-- An integer. -/
def writeInt : Int → List Char
  | .ofNat n => Nat.toDigits 10 n
  | .negSucc n => '-' :: Nat.toDigits 10 (n + 1)

/-- A truth value. -/
def writeBool (value : Bool) : List Char := if value then "true".toList else "false".toList

/-- A string, or nothing. -/
def writeOptionalString : Option String → List Char
  | some text => writeString text
  | none => "null".toList

/-- An object of the given names and written values. -/
def writeObject (members : List (String × List Char)) : List Char :=
  '{' :: (separate (members.map fun member => writeString member.1 ++ ':' :: member.2) ++ ['}'])

end Json

end Typeahead
