/-
Byte offsets into a text.

A text is a list of characters; an offset into it counts the bytes of its UTF-8 form.  An offset
may fall inside a character, and it may lie beyond the end of the text.

Main definitions:

* `Typeahead.Text.byteLength` — the number of bytes of a list of characters;
* `Typeahead.Text.splitAtByte` — the characters wholly before an offset, and those after them.

Main results:

* `Typeahead.Text.splitAtByte_append` — the two parts make up the text;
* `Typeahead.Text.byteLength_splitAtByte_le` — the first part ends at or before the offset.
-/

set_option relaxedAutoImplicit false
set_option autoImplicit false

namespace Typeahead

namespace Text

/-- The number of bytes of the UTF-8 form. -/
def byteLength : List Char → Nat
  | [] => 0
  | c :: cs => c.utf8Size + byteLength cs

@[simp] theorem byteLength_nil : byteLength [] = 0 := rfl

@[simp] theorem byteLength_cons (c : Char) (cs : List Char) :
    byteLength (c :: cs) = c.utf8Size + byteLength cs := rfl

theorem byteLength_append (as bs : List Char) :
    byteLength (as ++ bs) = byteLength as + byteLength bs := by
  induction as with
  | nil => simp
  | cons a as ih => simp [ih, Nat.add_assoc]

/-- The characters that end at or before the offset `n`, and the remaining ones. -/
def splitAtByte : Nat → List Char → List Char × List Char
  | _, [] => ([], [])
  | n, c :: cs =>
      if c.utf8Size ≤ n then
        let parts := splitAtByte (n - c.utf8Size) cs
        (c :: parts.1, parts.2)
      else ([], c :: cs)

theorem splitAtByte_append (n : Nat) (cs : List Char) :
    (splitAtByte n cs).1 ++ (splitAtByte n cs).2 = cs := by
  induction cs generalizing n with
  | nil => rfl
  | cons c cs ih =>
      rw [splitAtByte]
      split
      · simp [ih]
      · rfl

theorem byteLength_splitAtByte_le (n : Nat) (cs : List Char) :
    byteLength (splitAtByte n cs).1 ≤ n := by
  induction cs generalizing n with
  | nil => simp [splitAtByte]
  | cons c cs ih =>
      rw [splitAtByte]
      split
      · have := ih (n - c.utf8Size)
        simp only [byteLength_cons]
        omega
      · simp

end Text

end Typeahead
