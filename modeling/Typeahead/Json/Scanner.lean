/-
A JSON package that scans.

Main definitions:

* `Typeahead.Json.readInt`, `Typeahead.Json.readBool`, `Typeahead.Json.readStrings`,
  `Typeahead.Json.readOptionalString` — values of a fixed type;
* `Typeahead.Json.nextElement`, `Typeahead.Json.nextName` — the items of a list and of an object;
* `Typeahead.Json.scanner` — the package.
-/

import Typeahead.Json.Skip
import Typeahead.Json.Write

set_option relaxedAutoImplicit false
set_option autoImplicit false

namespace Typeahead

namespace Json

/-! ### Values of a fixed type -/

/-- The fault of a value that is not of the type asked for.  A scalar is read to its end first, so
that a malformed one is told apart. -/
def refuse (input : List Char) : Fault :=
  match input with
  | 'n' :: rest => if (expect "ull".toList rest).toOption.isSome then .unfit else .malformed
  | 't' :: rest => if (expect "rue".toList rest).toOption.isSome then .unfit else .malformed
  | 'f' :: rest => if (expect "alse".toList rest).toOption.isSome then .unfit else .malformed
  | '"' :: rest => if (scanString rest).isSome then .unfit else .malformed
  | '[' :: _ | '{' :: _ => .unfit
  | c :: rest =>
      if c == '-' || c.isDigit then
        if (readNumber (c :: rest)).toOption.isSome then .unfit else .malformed
      else .malformed
  | [] => .malformed

/-- An integer between two bounds. -/
def readInt (least greatest : Int) (input : List Char) : Scanned Int :=
  match skipBlanks input with
  | c :: rest =>
      if c == '-' || c.isDigit then
        match readNumber (c :: rest) with
        | .ok (some value, rest) =>
            if least ≤ value ∧ value ≤ greatest then .ok (value, rest) else .error .unfit
        | .ok (none, _) => .error .unfit
        | .error fault => .error fault
      else .error (refuse (c :: rest))
  | [] => .error .malformed

/-- A truth value. -/
def readBool (input : List Char) : Scanned Bool :=
  match skipBlanks input with
  | 't' :: rest => (expect "rue".toList rest).map fun rest => (true, rest)
  | 'f' :: rest => (expect "alse".toList rest).map fun rest => (false, rest)
  | rest => .error (refuse rest)

/-- A string. -/
def readString (input : List Char) : Scanned String :=
  match skipBlanks input with
  | '"' :: rest =>
      match scanString rest with
      | some (text, rest) => .ok (String.ofList text, rest)
      | none => .error .malformed
  | rest => .error (refuse rest)

/-- A string, or nothing. -/
def readOptionalString (input : List Char) : Scanned (Option String) :=
  match skipBlanks input with
  | 'n' :: rest => (expect "ull".toList rest).map fun rest => (none, rest)
  | rest => (readString rest).map fun scanned => (some scanned.1, scanned.2)

/-- What comes next in a list.  All elements but the first come after a comma. -/
def nextElement (first : Bool) (input : List Char) : Except Fault Next :=
  match skipBlanks input, first with
  | ']' :: rest, _ => .ok (.close rest)
  | ',' :: rest, false =>
      match skipBlanks rest with
      | ']' :: _ | [] => .error .malformed
      | rest => .ok (.item rest)
  | [], _ => .error .malformed
  | rest, true => .ok (.item rest)
  | _, false => .error .malformed

/-- The rest of a list of strings, of at most `fuel` elements. -/
def readStringsWithin : Nat → Bool → List Char → Scanned (List String)
  | 0, _, _ => .error .malformed
  | fuel + 1, first, input =>
      match nextElement first input with
      | .error fault => .error fault
      | .ok (.close rest) => .ok ([], rest)
      | .ok (.item rest) =>
          match readString rest with
          | .error fault => .error fault
          | .ok (text, rest) =>
              (readStringsWithin fuel false rest).map fun scanned => (text :: scanned.1, scanned.2)

/-- A list of strings. -/
def readStrings (input : List Char) : Scanned (List String) :=
  match skipBlanks input with
  | '[' :: rest => readStringsWithin (rest.length + 1) true rest
  | rest => .error (refuse rest)

/-! ### Lists and objects -/

/-- Goes into a list or an object. -/
def enter (input : List Char) : Except Fault Opened :=
  match skipBlanks input with
  | '[' :: rest => .ok (.list rest)
  | '{' :: rest => .ok (.object rest)
  | rest => .error (refuse rest)

/-- The characters after the end of a list. -/
def closeList (input : List Char) : Except Fault (List Char) :=
  match skipBlanks input with
  | ']' :: rest => .ok rest
  | _ => .error .malformed

/-- What comes next in an object, after the quote that opens a name.  All names but the first
come after a comma. -/
def nextMember (first : Bool) (input : List Char) : Except Fault Next :=
  match skipBlanks input, first with
  | '}' :: rest, _ => .ok (.close rest)
  | ',' :: rest, false =>
      match skipBlanks rest with
      | '"' :: rest => .ok (.item rest)
      | _ => .error .malformed
  | '"' :: rest, true => .ok (.item rest)
  | _, _ => .error .malformed

/-- The name of the next member of an object, if there is one. -/
def nextName (first : Bool) (input : List Char) : Scanned (Option String) :=
  match nextMember first input with
  | .error fault => .error fault
  | .ok (.close rest) => .ok (none, rest)
  | .ok (.item rest) =>
      match scanString rest with
      | some (name, rest) => .ok (some (String.ofList name), rest)
      | none => .error .malformed

/-- The characters after a colon. -/
def expectColon (input : List Char) : Except Fault (List Char) :=
  match skipBlanks input with
  | ':' :: rest => .ok rest
  | _ => .error .malformed

/-- The package whose readers scan. -/
def scanner : Package where
  enter := enter
  nextElement := nextElement
  closeList := closeList
  nextName := nextName
  colon := expectColon
  readInt := readInt
  readBool := readBool
  readStrings := readStrings
  readOptionalString := readOptionalString
  skip input :=
    match skipValue input with
    | some rest => .ok rest
    | none => .error .malformed
  finish input := if (skipBlanks input).isEmpty then .ok () else .error .malformed
  writeInt := writeInt
  writeBool := writeBool
  writeStrings := writeStrings
  writeOptionalString := writeOptionalString
  writeObject := writeObject

end Json

end Typeahead
