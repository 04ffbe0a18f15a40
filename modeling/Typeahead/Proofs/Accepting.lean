/-
Accepting a suggestion.

What a reading lets a suggestion replace is a stretch around the cursor.  It lies between whole
characters, even where the cursor is inside one, and within one word.  When a text without
separators is put in its place and the cursor behind that, the same word is being typed as before,
and it reads what was put there: the words before it are the same, and what is right of the cursor,
such as a word that the new one now touches, does not count.

Main definitions:

* `Typeahead.Span.replace` — the text with another text in place of a stretch;
* `Typeahead.Span.IsAround` — the stretch is around the cursor, within one word;
* `Typeahead.Reading.Continues` — a reading has the same words as another up to the active one,
  which has a given text.

Main results:

* `Typeahead.Reading.exists_around` — the text before a cursor's word, the word, and the text after;
* `Typeahead.Reading.ofText_behind` — the reading right behind a word;
* `Typeahead.Reading.ofText_replace` — the reading after a suggestion is accepted.
-/

import Typeahead.Proofs.Tokens

set_option relaxedAutoImplicit false
set_option autoImplicit false

namespace Typeahead

open Text

namespace Text

/-- An offset where a part of the text ends splits the text there. -/
theorem splitAtByte_byteLength (before after : List Char) :
    splitAtByte (byteLength before) (before ++ after) = (before, after) := by
  have hzero : splitAtByte 0 after = ([], after) := by
    have happend := splitAtByte_append 0 after
    rw [splitAtByte_zero, List.nil_append] at happend
    exact Prod.ext (splitAtByte_zero after) happend
  have hsplit := splitAtByte_append_add before after 0
  rwa [Nat.add_zero, hzero, List.append_nil] at hsplit

/-- An offset where a part of the text ends is between two characters. -/
theorem isValid_byteLength {text : String} {before after : List Char}
    (h : text.toList = before ++ after) : String.Pos.Raw.IsValid text ⟨byteLength before⟩ := by
  refine String.Pos.Raw.isValid_iff_exists_append.2
    ⟨String.ofList before, String.ofList after, ?_, ?_⟩
  · rw [← String.ofList_append, ← h, String.ofList_toList]
  · rw [String.rawEndPos, utf8ByteSize_eq_byteLength, String.toList_ofList]

end Text

namespace Span

/-! ### The stretch that is replaced -/

/-- The text with `new` in place of a stretch. -/
def replace (span : Span) (text new : String) : String :=
  String.ofList ((splitAtByte span.start text.toList).1 ++ new.toList ++
    (splitAtByte span.stop text.toList).2)

/-- The stretch is around the cursor and in the text, it has whole characters only, and none of them
is a separator. -/
structure IsAround (span : Span) (text : String) (cursor : Nat) : Prop where
  start_le : span.start ≤ cursor
  le_stop : cursor ≤ span.stop
  stop_le : span.stop ≤ text.utf8ByteSize
  start_isValid : String.Pos.Raw.IsValid text ⟨span.start⟩
  stop_isValid : String.Pos.Raw.IsValid text ⟨span.stop⟩
  unbroken : ∀ byte ∈ span.slice (utf8Bytes text), isSeparatorByte byte = false

section Parts

variable {text : String} {before word after : List Char}
  (htext : text.toList = before ++ word ++ after)
include htext

theorem replace_eq (new : String) :
    (⟨byteLength before, byteLength (before ++ word)⟩ : Span).replace text new =
      String.ofList (before ++ new.toList ++ after) := by
  rw [replace, htext, splitAtByte_byteLength, List.append_assoc before, splitAtByte_byteLength]

theorem take_utf8Bytes : (utf8Bytes text).take (byteLength before) = encoded before := by
  rw [utf8Bytes_eq_encoded, htext, List.append_assoc, encoded_append, ← length_encoded,
    List.take_left]

theorem drop_utf8Bytes : (utf8Bytes text).drop (byteLength (before ++ word)) = encoded after := by
  rw [utf8Bytes_eq_encoded, htext, encoded_append _ after, ← length_encoded, List.drop_left]

theorem slice_utf8Bytes :
    (⟨byteLength before, byteLength (before ++ word)⟩ : Span).slice (utf8Bytes text) =
      encoded word := by
  have htext' : text.toList = before ++ word ++ after ++ [] := by rw [htext, List.append_nil]
  rw [slice, take_utf8Bytes htext', encoded_append, ← length_encoded, List.drop_left]

/-- A part of the text without separators is around every offset in it. -/
theorem isAround {cursor : Nat} (hword : Unbroken word) (hstart : byteLength before ≤ cursor)
    (hstop : cursor ≤ byteLength (before ++ word)) :
    IsAround ⟨byteLength before, byteLength (before ++ word)⟩ text cursor where
  start_le := hstart
  le_stop := hstop
  stop_le := by
    rw [utf8ByteSize_eq_byteLength, htext, byteLength_append _ after]
    exact Nat.le_add_right ..
  start_isValid := isValid_byteLength (htext.trans (List.append_assoc ..))
  stop_isValid := isValid_byteLength htext
  unbroken := by
    rw [slice_utf8Bytes htext]
    exact isSeparatorByte_of_unbroken hword

end Parts

end Span

namespace Reading

/-- The words are those of the other reading up to the active one, which starts at the same place
and reads `word`. -/
structure Continues (reading other : Reading) (word : String) : Prop where
  active_eq : reading.query.active = other.query.active
  start_eq : reading.span.start = other.span.start
  words_eq : reading.query.words.take reading.query.active =
    other.query.words.take other.query.active
  word_eq : reading.query.words[reading.query.active]? = some word

/-- A cursor in a text is at a word, or at an empty stretch where one may start. -/
theorem exists_around {text : List Char} {cursor : Nat} (h : cursor ≤ byteLength text) :
    ∃ before word after, text = before ++ word ++ after ∧ StartsWord before ∧ Unbroken word ∧
      byteLength before ≤ cursor ∧ cursor ≤ byteLength (before ++ word) ∧
      finishedWords (visible text cursor) = finishedWords before ∧
      activeSpan text cursor = ⟨byteLength before, byteLength (before ++ word)⟩ := by
  obtain ⟨number, typed, span, hcursor⟩ := exists_atCursor text cursor
  obtain ⟨-, -, hspan⟩ := hcursor.reading_eq
  cases hcursor with
  | @word before word after number hhas hlt hle =>
      exact ⟨before, word, after, hhas.text_eq, hhas.starts, hhas.unbroken, hlt.le, hle,
        finishedWords_visible_of_hasWord hhas hlt hle, hspan⟩
  | @between before after htext hlength hbefore =>
      refine ⟨before, [], after, by rwa [List.append_nil], hbefore, unbroken_nil, hlength.le, ?_⟩
      rw [List.append_nil, hlength, hspan, htext, visible_of_byteLength_eq hlength]
      exact ⟨le_rfl, rfl, rfl⟩
  | beyond hlt => omega

/-- Right behind a word, this word is the active one. -/
theorem ofText_behind {before word : List Char} (hbefore : StartsWord before)
    (hword : Unbroken word) (hne : word ≠ []) (after : List Char) (commands : List String) :
    ∃ stop, ofText (String.ofList (before ++ word ++ after)) (byteLength (before ++ word)) .hint
      commands = ⟨⟨(finishedWords before ++ [word]).map String.ofList,
        (finishedWords before).length, .hint⟩, ⟨byteLength before, stop⟩⟩ := by
  have hvisible : visible (before ++ word ++ after) (byteLength (before ++ word)) =
      before ++ word := visible_of_byteLength_eq rfl after
  have hlast : lastField (before ++ word) = word := lastField_append hbefore hword
  have hstart : (activeSpan (before ++ word ++ after) (byteLength (before ++ word))).start =
      byteLength before := by
    simp only [activeSpan, hvisible, hlast, List.isEmpty_eq_false_iff.2 hne,
      splitAtByte_byteLength, Bool.false_eq_true, if_false]
    rw [byteLength_append, Nat.add_sub_cancel]
  refine ⟨(activeSpan (before ++ word ++ after) (byteLength (before ++ word))).stop, ?_⟩
  rw [ofText_hint, String.toList_ofList, ← hstart, typedWords, hvisible, hlast,
    finishedWords_append hbefore hword]

/-- Before the end of the text, what is replaced is around the cursor.  With a text without
separators in its place and the cursor behind that, the words are the same up to the active one,
which is this text. -/
theorem ofText_replace (text : String) (cursor : Nat) (commands : List String) (new : String)
    (hcursor : cursor ≤ text.utf8ByteSize) (hne : new ≠ "")
    (hnew : ∀ c ∈ new.toList, isSeparator c = false) :
    let reading := ofText text cursor .hint commands
    let edited := reading.span.replace text new
    reading.span.IsAround text cursor ∧
      utf8Bytes edited = (utf8Bytes text).take reading.span.start ++ utf8Bytes new ++
        (utf8Bytes text).drop reading.span.stop ∧
      (ofText edited (reading.span.start + new.utf8ByteSize) .hint commands).Continues reading
        new := by
  rw [utf8ByteSize_eq_byteLength] at hcursor
  obtain ⟨before, word, after, htext, hbefore, hword, hstart, hstop, hfinished, hspan⟩ :=
    exists_around hcursor
  intro reading edited
  have hreading : reading = ⟨⟨(finishedWords before ++
      [lastField (visible text.toList cursor)]).map String.ofList,
      (finishedWords before).length, .hint⟩,
      ⟨byteLength before, byteLength (before ++ word)⟩⟩ := by
    rw [show reading = _ from ofText_hint text cursor commands, typedWords, hfinished, hspan]
  have hedited : edited = String.ofList (before ++ new.toList ++ after) := by
    rw [show edited = reading.span.replace text new from rfl, hreading, Span.replace_eq htext]
  obtain ⟨stop, hbehind⟩ := ofText_behind hbefore hnew
    (fun hnil => hne (String.toList_eq_nil_iff.1 hnil)) after commands
  rw [hedited, hreading]
  refine ⟨Span.isAround htext hword hstart hstop, ?_, ?_⟩
  · rw [Span.take_utf8Bytes htext, Span.drop_utf8Bytes htext, utf8Bytes_eq_encoded,
      utf8Bytes_eq_encoded, String.toList_ofList, encoded_append, encoded_append]
  · rw [utf8ByteSize_eq_byteLength, ← byteLength_append, hbehind]
    have htake : ∀ last, ((finishedWords before ++ [last]).map String.ofList).take
        (finishedWords before).length = (finishedWords before).map String.ofList := by
      intro last
      rw [← List.map_take, List.take_left]
    refine ⟨rfl, rfl, (htake _).trans (htake _).symm, ?_⟩
    rw [List.getElem?_map, List.getElem?_concat_length, Option.map_some, String.ofList_toList]

/-- The cursor is inside `é`.  The whole word is replaced, and the text that takes its place is the
active word then. -/
theorem ofText_replace_cut :
    (ofText "a éx b" 3 .hint []).span.IsAround "a éx b" 3 ∧
      (ofText "a éx b" 3 .hint []).span.replace "a éx b" "ü" = "a ü b" ∧
      (ofText "a ü b" 4 .hint []).Continues (ofText "a éx b" 3 .hint []) "ü" := by
  have hnew : ∀ c ∈ "ü".toList, isSeparator c = false := by
    rw [show "ü".toList = ['ü'] from by decide +kernel]
    exact List.forall_mem_singleton.2 (by decide)
  obtain ⟨haround, -, hcontinues⟩ := ofText_replace "a éx b" 3 [] "ü" (by decide +kernel)
    (by decide) hnew
  have hspan : (ofText "a éx b" 3 .hint []).span = ⟨2, 5⟩ := by decide +kernel
  have hreplace : (⟨2, 5⟩ : Span).replace "a éx b" "ü" = "a ü b" := by decide +kernel
  have hcursor : 2 + "ü".utf8ByteSize = 4 := by decide +kernel
  rw [hspan] at haround hcontinues ⊢
  rw [hreplace, hcursor] at hcontinues
  exact ⟨haround, hreplace, hcontinues⟩

end Reading

end Typeahead
