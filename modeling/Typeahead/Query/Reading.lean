/-
Reading a query off a line of text and a cursor.

Only what stands before the cursor counts.  A character that the cursor cuts in two shows as the
replacement character, and a cursor beyond the end of the text stands apart from its last word.
The reading also tells which stretch of the text an accepted suggestion replaces: the whole word
at the cursor, or nothing when the cursor stands apart from every word.  Here the reading is told by
the characters of the text; `Typeahead.Reading.digest` finds it in one pass over the bytes.

Main definitions:

* `Typeahead.Span` — a stretch of the text, in bytes;
* `Typeahead.Reading` — a query with the stretch its active word takes up;
* `Typeahead.Reading.visible` — the characters that count;
* `Typeahead.Reading.ofText` — the reading of a text.
-/

import Typeahead.Query.Basic
import Typeahead.Text.Offset
import Typeahead.Text.Words

set_option relaxedAutoImplicit false
set_option autoImplicit false

namespace Typeahead

/-- A stretch of a text between two byte offsets. -/
structure Span where
  start : Nat
  stop : Nat
  deriving DecidableEq, Repr

/-- The number of bytes of the stretch. -/
def Span.length (span : Span) : Nat := span.stop - span.start

/-- A query together with the stretch of text that its active word takes up. -/
structure Reading where
  query : Query
  span : Span
  deriving DecidableEq, Repr

namespace Reading

/-- What shows between the last whole character before the cursor and the cursor itself: nothing
when they meet, the replacement character when the cursor is inside a character, and a blank when
it is beyond the end of the text. -/
def gap (before after : List Char) (cursor : Nat) : List Char :=
  if Text.byteLength before < cursor then
    if after.isEmpty then [' '] else ['\uFFFD']
  else []

/-- The characters before the cursor, as they count for the query. -/
def visible (text : List Char) (cursor : Nat) : List Char :=
  let parts := Text.splitAtByte cursor text
  parts.1 ++ gap parts.1 parts.2 cursor

/-- The finished words before the cursor and then the word at the cursor, which may be empty. -/
def typedWords (text : List Char) (cursor : Nat) : List (List Char) :=
  let seen := visible text cursor
  Text.finishedWords seen ++ [Text.lastField seen]

/-- The stretch of the word at the cursor, on both sides of it; empty when the cursor touches no
word. -/
def activeSpan (text : List Char) (cursor : Nat) : Span :=
  if (Text.lastField (visible text cursor)).isEmpty then ⟨cursor, cursor⟩
  else
    let parts := Text.splitAtByte cursor text
    let begun := Text.lastField parts.1
    let start := Text.byteLength parts.1 - Text.byteLength begun
    let rest := parts.2.takeWhile (fun c => !Text.isSeparator c)
    ⟨start, start + Text.byteLength (begun ++ rest)⟩

/-- The reading of `text` with the cursor at byte offset `cursor`.  For suggestions the active
word is forgotten, so that every word that may stand there is offered; the path after an include
command is kept, because it tells which directory to list. -/
def ofText (text : String) (cursor : Nat) (mode : Mode) (includeCommands : List String) :
    Reading :=
  let words := (typedWords text.toList cursor).map String.ofList
  let query : Query := ⟨words, words.length - 1, mode⟩
  let kept := mode == .hint || query.isInclude includeCommands
  { query := if kept then query else { query with words := words.dropLast ++ [""] }
    span := activeSpan text.toList cursor }

end Reading

end Typeahead
