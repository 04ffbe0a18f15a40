/-
Texts in double quotes, for messages.

Main definitions:

* `Typeahead.Text.quoted` — the text between quotes, with what would not show written out.
-/

import Typeahead.Text.Unprintable

set_option relaxedAutoImplicit false
set_option autoImplicit false

namespace Typeahead

namespace Text

/-- A character inside quotes: quotes, backslashes and characters that do not show are written
out. -/
def quotedChar (c : Char) : List Char :=
  match c with
  | '"' => ['\\', '"']
  | '\\' => ['\\', '\\']
  | '\n' => ['\\', 'n']
  | '\t' => ['\\', 't']
  | '\r' => ['\\', 'r']
  | '\x00' => ['\\', '0']
  | c =>
      if isUnprintable c then
        ['\\', 'u', '\x7b'] ++ Nat.toDigits 16 c.toNat ++ ['\x7d']
      else [c]

/-- A text in double quotes. -/
def quoted (text : String) : String :=
  String.ofList ('"' :: (text.toList.flatMap quotedChar ++ ['"']))

end Text

end Typeahead
