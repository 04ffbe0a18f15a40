/-
Reading a query byte by byte.

One pass over the bytes of a text finds the words before the cursor and the word at it.  A blank is
added at the end, so that the last word is ended like every other one.  Of a word that the cursor
is in, only the bytes before the cursor are kept, but the pass goes on to the end of the word, since
an accepted suggestion replaces all of it.  When the next word starts behind the cursor and the word
at the cursor has not been found, there is none: the cursor starts a new word, and the pass stops.

Main definitions:

* `Typeahead.Scan` — what the pass has found so far;
* `Typeahead.Scan.run` — the pass over the remaining bytes;
* `Typeahead.Reading.digest` — the reading of a text by this pass.
-/

import Typeahead.Query.Reading
import Typeahead.Text.Bytes

set_option relaxedAutoImplicit false
set_option autoImplicit false

namespace Typeahead

/-- What a pass over the bytes of a text has found so far. -/
structure Scan where
  /-- The words that have ended. -/
  words : List (List Char) := []
  /-- The bytes of the present word that stand before the cursor. -/
  begun : List UInt8 := []
  /-- Where the present word starts. -/
  start : Nat := 0
  /-- The place of the word at the cursor, and the stretch that it takes up. -/
  found : Option (Nat × Span) := none
  deriving DecidableEq, Repr

namespace Scan

/-- A separator at offset `i` ends the present word, if there is one. -/
def endWord (cursor i : Nat) (scan : Scan) : Scan :=
  if scan.begun.isEmpty then scan
  else
    { scan with
      words := scan.words ++ [Text.lossy scan.begun]
      begun := []
      found := if scan.found.isNone && cursor ≤ i then some (scan.words.length, ⟨scan.start, i⟩)
        else scan.found }

/-- A word starts behind the cursor, and the word at the cursor has not been found. -/
def isPast (cursor i : Nat) (scan : Scan) : Bool :=
  scan.begun.isEmpty && scan.found.isNone && cursor < i

/-- The cursor starts a word of its own. -/
def startWord (cursor : Nat) (scan : Scan) : Scan :=
  { scan with
    words := scan.words ++ [[]]
    found := some (scan.words.length, ⟨cursor, cursor⟩) }

/-- A byte at offset `i` that is no separator starts a word or goes on with the present one. -/
def addByte (cursor i : Nat) (byte : UInt8) (scan : Scan) : Scan :=
  { scan with
    start := if scan.begun.isEmpty then i else scan.start
    begun := if i < cursor then scan.begun ++ [byte] else scan.begun }

/-- The pass over the bytes from offset `i` on. -/
def run (cursor : Nat) : Nat → List UInt8 → Scan → Scan
  | _, [], scan => scan
  | i, byte :: bytes, scan =>
      if Text.isSeparatorByte byte then run cursor (i + 1) bytes (scan.endWord cursor i)
      else if scan.isPast cursor i then scan.startWord cursor
      else run cursor (i + 1) bytes (scan.addByte cursor i byte)

/-- The words, the place of the one at the cursor and the stretch that it takes up.  Where none has
been found, the cursor starts a new word behind the others. -/
def located (cursor : Nat) (scan : Scan) : List (List Char) × Nat × Span :=
  match scan.found with
  | some (active, span) => (scan.words, active, span)
  | none => (scan.words ++ [[]], scan.words.length, ⟨cursor, cursor⟩)

end Scan

/-- The reading of `text` by one pass over its bytes.  For suggestions the word at the cursor is
cleared, unless it is the path behind an include command. -/
def Reading.digest (text : String) (cursor : Nat) (mode : Mode) (includeCommands : List String) :
    Reading :=
  let scan := Scan.run cursor 0 (utf8Bytes text ++ [0x20]) {}
  let (words, active, span) := scan.located cursor
  let query : Query := ⟨(words.take (active + 1)).map String.ofList, active, mode⟩
  if mode == .suggest && !query.isInclude includeCommands then
    ⟨{ query with words := query.words.set (query.words.length - 1) "" }, span⟩
  else ⟨query, span⟩

end Typeahead
