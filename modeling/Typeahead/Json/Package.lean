/-
What the settings ask of a JSON package.

A package reads a text from the left: each of its readers takes the characters that are left and
gives those after what it read.  A text can fail in two ways: it is malformed, or it is well formed
so far but holds a value that does not fit.  Whichever comes first, from left to right, counts.  The
writers give the text of a value, and the text of an object whose values are written.

Main definitions:

* `Typeahead.Json.Fault` — the two ways to fail;
* `Typeahead.Json.Package` — the readers and writers.
-/

set_option relaxedAutoImplicit false
set_option autoImplicit false

namespace Typeahead

namespace Json

/-- Why a text cannot be read. -/
inductive Fault where
  /-- The text is not JSON. -/
  | malformed
  /-- A value is of the wrong type or out of range, or a field is there twice. -/
  | unfit
  deriving DecidableEq, Repr

/-- What was read, and the characters after it. -/
abbrev Scanned (α : Type) := Except Fault (α × List Char)

/-- The characters after the bracket that opens a list or an object. -/
inductive Opened where
  | list (rest : List Char)
  | object (rest : List Char)

/-- What comes next in a list: a further element, or the end. -/
inductive Next where
  | item (rest : List Char)
  | close (rest : List Char)

/-- The readers and writers of a package. -/
structure Package where
  /-- Goes into a list or an object. -/
  enter : List Char → Except Fault Opened
  /-- Goes to the next element of a list, or out of the list; the first element has no comma. -/
  nextElement : Bool → List Char → Except Fault Next
  /-- Goes out of a list that has to end. -/
  closeList : List Char → Except Fault (List Char)
  /-- The name of the next member of an object, if the object does not end; the first name has no
  comma. -/
  nextName : Bool → List Char → Scanned (Option String)
  /-- Goes from a name to its value. -/
  colon : List Char → Except Fault (List Char)
  /-- An integer between two bounds. -/
  readInt : Int → Int → List Char → Scanned Int
  /-- A truth value. -/
  readBool : List Char → Scanned Bool
  /-- A list of strings. -/
  readStrings : List Char → Scanned (List String)
  /-- A string, or nothing. -/
  readOptionalString : List Char → Scanned (Option String)
  /-- Skips a value of any kind. -/
  skip : List Char → Except Fault (List Char)
  /-- Makes sure that the text ends. -/
  finish : List Char → Except Fault Unit
  /-- Writes an integer. -/
  writeInt : Int → List Char
  /-- Writes a truth value. -/
  writeBool : Bool → List Char
  /-- Writes a list of strings. -/
  writeStrings : List String → List Char
  /-- Writes a string, or nothing. -/
  writeOptionalString : Option String → List Char
  /-- Writes an object of the given names and written values. -/
  writeObject : List (String × List Char) → List Char

end Json

end Typeahead
