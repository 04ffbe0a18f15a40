/-
Skipping JSON values.

A field that is not known may hold any value; the value is skipped, but it has to be well formed.

Main definitions:

* `Typeahead.Json.skipValue` — the characters after a value.
-/

import Typeahead.Json.Scan

set_option relaxedAutoImplicit false
set_option autoImplicit false

namespace Typeahead

namespace Json

/-- The characters after a name and its colon. -/
def skipName (input : List Char) : Option (List Char) :=
  match skipBlanks input with
  | '"' :: rest =>
      (skipString rest).bind fun rest =>
        match skipBlanks rest with
        | ':' :: rest => some rest
        | _ => none
  | _ => none

mutual

/-- The characters after a value, to be found in at most `fuel` steps. -/
def skipValueWithin : Nat → List Char → Option (List Char)
  | 0, _ => none
  | fuel + 1, input =>
      match skipBlanks input with
      | 'n' :: rest => (expect "ull".toList rest).toOption
      | 't' :: rest => (expect "rue".toList rest).toOption
      | 'f' :: rest => (expect "alse".toList rest).toOption
      | '"' :: rest => skipString rest
      | '[' :: rest =>
          match skipBlanks rest with
          | ']' :: rest => some rest
          | rest => skipElements fuel rest
      | '{' :: rest =>
          match skipBlanks rest with
          | '}' :: rest => some rest
          | rest => skipMembers fuel rest
      | rest => (scanNumeral rest).map Prod.snd

/-- The characters after the elements of an array, of which there is at least one. -/
def skipElements : Nat → List Char → Option (List Char)
  | 0, _ => none
  | fuel + 1, input =>
      (skipValueWithin fuel input).bind fun rest =>
        match skipBlanks rest with
        | ',' :: rest => skipElements fuel rest
        | ']' :: rest => some rest
        | _ => none

/-- The characters after the members of an object, of which there is at least one. -/
def skipMembers : Nat → List Char → Option (List Char)
  | 0, _ => none
  | fuel + 1, input =>
      (skipName input).bind fun rest =>
        (skipValueWithin fuel rest).bind fun rest =>
          match skipBlanks rest with
          | ',' :: rest => skipMembers fuel rest
          | '}' :: rest => some rest
          | _ => none

end

/-- The characters after a value.  Every two steps take at least one character. -/
def skipValue (input : List Char) : Option (List Char) :=
  skipValueWithin (2 * input.length + 2) input

end Json

end Typeahead
