/-
Words of a text.

Words are separated by blanks, tabs and line ends.  Cutting a text at every separator gives its
fields; a field may be empty, and the words are the fields that are not.  The last field is what
is being typed at the end of the text: it is empty right after a separator.

Main definitions:

* `Typeahead.Text.isSeparator` — the characters that end a word;
* `Typeahead.Text.fields` — the text cut at each separator;
* `Typeahead.Text.finishedWords` — the words that a separator follows;
* `Typeahead.Text.lastField` — what is being typed at the end of the text.
-/

set_option relaxedAutoImplicit false
set_option autoImplicit false

namespace Typeahead

namespace Text

/-- Blank, tab, line feed and carriage return end a word. -/
def isSeparator (c : Char) : Bool :=
  c == ' ' || c == '\t' || c == '\n' || c == '\r'

/-- The text cut at each separator, empty pieces included. -/
def fields (cs : List Char) : List (List Char) := cs.splitOnP isSeparator

theorem fields_ne_nil (cs : List Char) : fields cs ≠ [] := List.splitOnP_ne_nil isSeparator cs

/-- The words that a separator follows. -/
def finishedWords (cs : List Char) : List (List Char) :=
  (fields cs).dropLast.filter fun field => !field.isEmpty

/-- The piece after the last separator: what is being typed at the end of the text. -/
def lastField (cs : List Char) : List Char := (fields cs).getLast (fields_ne_nil cs)

end Text

end Typeahead
