/-
What an answer depends on.

An answer is found from the words of the reading, and these come from the characters before the
cursor.  Where the bytes before the cursor are the same, so are these characters: no encoding of a
character begins that of another, so the bytes can be cut into characters in one way only, and a
character that the cursor cuts in two shows as the replacement character whichever it is.  What is
right of the cursor only tells how much an accepted suggestion replaces.

For suggestions the word at the cursor is forgotten as well, unless a file is to be included.

Main definitions:

* `Typeahead.Completion.relocate` — the same answer for another stretch of text;
* `Typeahead.Language.typedQuery` — the words as they were typed.

Main results:

* `Typeahead.Text.splitAtByte_congr` — the same bytes before an offset are the same characters;
* `Typeahead.Reading.ofText_congr` — and give the same query, at the same place;
* `Typeahead.Language.suggest_eq_relocate` — the suggestions depend on the query only;
* `Typeahead.Language.answers_left_of_cursor` — nothing right of the cursor and nothing of the word
  at the cursor has an influence on the suggestions.
-/

import Typeahead.Proofs.Suggestions

set_option relaxedAutoImplicit false
set_option autoImplicit false

namespace Typeahead

/-! ### Bytes and characters -/

/-- The encoding of a character does not begin that of another. -/
theorem eq_of_utf8EncodeChar_append {c d : Char} {xs ys : List UInt8}
    (h : String.utf8EncodeChar c ++ xs = String.utf8EncodeChar d ++ ys) : c = d := by
  rcases Nat.lt_trichotomy c.toNat d.toNat with hlt | heq | hgt
  · exact absurd h (Std.ne_of_lt (utf8EncodeChar_lt hlt xs ys))
  · exact Char.toNat_inj.1 heq
  · exact absurd h (Std.ne_of_lt (utf8EncodeChar_lt hgt ys xs)).symm

/-- A character that ends at or before an offset is fixed by the bytes before the offset. -/
theorem eq_of_take_utf8EncodeChar_append {n : Nat} {c d : Char} {xs ys : List UInt8}
    (hsize : c.utf8Size ≤ n)
    (h : (String.utf8EncodeChar c ++ xs).take n = (String.utf8EncodeChar d ++ ys).take n) :
    c = d := by
  rw [List.take_append, List.take_of_length_le (by rwa [String.length_utf8EncodeChar])] at h
  -- the rest of the other text follows the bytes that are shared
  have happend : String.utf8EncodeChar c ++ (xs.take (n - (String.utf8EncodeChar c).length) ++
      (String.utf8EncodeChar d ++ ys).drop n) = String.utf8EncodeChar d ++ ys := by
    rw [← List.append_assoc, h, List.take_append_drop]
  exact eq_of_utf8EncodeChar_append happend

namespace Text

theorem splitAtByte_zero (cs : List Char) : (splitAtByte 0 cs).1 = [] := by
  cases cs with
  | nil => rfl
  | cons c cs => rw [splitAtByte, if_neg (Nat.not_le.2 c.utf8Size_pos)]

/-- The same bytes before an offset are the same characters before it. -/
theorem splitAtByte_congr {n : Nat} {cs ds : List Char} (hcs : n ≤ byteLength cs)
    (hds : n ≤ byteLength ds)
    (h : (cs.flatMap String.utf8EncodeChar).take n = (ds.flatMap String.utf8EncodeChar).take n) :
    (splitAtByte n cs).1 = (splitAtByte n ds).1 := by
  induction cs generalizing n ds with
  | nil =>
      obtain rfl : n = 0 := Nat.le_zero.1 hcs
      rw [splitAtByte_zero, splitAtByte_zero]
  | cons c cs ih =>
      cases ds with
      | nil =>
          obtain rfl : n = 0 := Nat.le_zero.1 hds
          rw [splitAtByte_zero, splitAtByte_zero]
      | cons d ds =>
          rw [List.flatMap_cons, List.flatMap_cons] at h
          by_cases hc : c.utf8Size ≤ n
          · obtain rfl := eq_of_take_utf8EncodeChar_append hc h
            rw [byteLength_cons] at hcs hds
            rw [List.take_append, List.take_append, List.append_cancel_left_eq,
              String.length_utf8EncodeChar] at h
            have hrest := ih (by omega) (by omega) h
            simp only [splitAtByte, if_pos hc, hrest]
          · -- the offset is inside the first character of either text
            have hd : ¬ d.utf8Size ≤ n := by
              intro hd
              obtain rfl := eq_of_take_utf8EncodeChar_append hd h.symm
              exact hc hd
            simp only [splitAtByte, if_neg hc, if_neg hd]

end Text

/-! ### Readings -/

namespace Reading

/-- Before the end of the text, nothing but a character that the cursor cuts in two shows there. -/
theorem gap_of_le {text : List Char} {cursor : Nat} (h : cursor ≤ Text.byteLength text) :
    gap (Text.splitAtByte cursor text).1 (Text.splitAtByte cursor text).2 cursor =
      if Text.byteLength (Text.splitAtByte cursor text).1 < cursor then ['\uFFFD'] else [] := by
  rw [gap]
  split
  · next hlt =>
      have hrest : (Text.splitAtByte cursor text).2 ≠ [] := by
        intro hnil
        have happend := Text.splitAtByte_append cursor text
        rw [hnil, List.append_nil] at happend
        rw [happend] at hlt
        omega
      rw [List.isEmpty_eq_false_iff.2 hrest, if_neg Bool.false_ne_true]
  · rfl

section Congr

variable {text other : String} {cursor : Nat} (hlength : cursor ≤ Text.byteLength text.toList)
  (hother : cursor ≤ Text.byteLength other.toList)
  (hbytes : (utf8Bytes text).take cursor = (utf8Bytes other).take cursor)
include hlength hother hbytes

theorem splitAtByte_fst_congr : (Text.splitAtByte cursor text.toList).1 =
    (Text.splitAtByte cursor other.toList).1 := by
  rw [utf8Bytes_eq, utf8Bytes_eq] at hbytes
  exact Text.splitAtByte_congr hlength hother hbytes

theorem visible_congr : visible text.toList cursor = visible other.toList cursor := by
  rw [visible, visible, gap_of_le hlength, gap_of_le hother,
    splitAtByte_fst_congr hlength hother hbytes]

/-- The same bytes before the cursor give the same query, and the word at the cursor starts at the
same place. -/
theorem ofText_congr (mode : Mode) (commands : List String) :
    (ofText text cursor mode commands).query = (ofText other cursor mode commands).query ∧
      (ofText text cursor mode commands).span.start =
        (ofText other cursor mode commands).span.start := by
  have hvisible := visible_congr hlength hother hbytes
  have hwords : typedWords text.toList cursor = typedWords other.toList cursor := by
    rw [typedWords, typedWords, hvisible]
  constructor
  · rw [ofText, ofText, hwords]
  · simp only [ofText, activeSpan, hvisible, splitAtByte_fst_congr hlength hother hbytes]
    split <;> rfl

end Congr

end Reading

namespace Completion

/-- The same answer for another stretch of text. -/
def relocate (answer : Completion) (span : Span) : Completion :=
  { answer with insertPosition := span.start, replaceLength := span.length }

end Completion

namespace Language

variable {first second : Request}

/-- The words as they were typed: the query that a request for hints starts from. -/
def typedQuery (language : Language) (request : Request) : Query :=
  (Reading.ofText request.text request.cursor .hint language.settings.includeCommands).query

/-- The stretch of text that the word at the cursor takes up. -/
def suggestSpan (language : Language) (request : Request) : Span :=
  (Reading.ofText request.text request.cursor .suggest language.settings.includeCommands).span

theorem suggestQuery_of_not_isInclude {language : Language} {request : Request}
    (h : (language.typedQuery request).isInclude language.settings.includeCommands = false) :
    language.suggestQuery request =
      ⟨(language.typedQuery request).words.dropLast ++ [""],
        (language.typedQuery request).words.length - 1, .suggest⟩ := by
  have hmode : (Mode.suggest == Mode.hint) = false := rfl
  simp only [typedQuery, suggestQuery, Reading.ofText, beq_self_eq_true, Bool.true_or, if_true,
    hmode, Bool.false_or, Query.isInclude] at h ⊢
  rw [h, if_neg Bool.false_ne_true]

section Requests

variable (language : Language) (hblocks : second.blocks = first.blocks)
  (hscope : second.scope = first.scope)
include hblocks hscope

theorem hint_congr (hquery : language.typedQuery second = language.typedQuery first) :
    language.hint second = language.hint first := by
  rw [typedQuery, typedQuery] at hquery
  simp only [hint, hquery, hblocks, hscope]

/-- Two requests with the same query have the same suggestions, each for its own stretch of text. -/
theorem suggest_eq_relocate (files : FileTree)
    (hquery : language.suggestQuery second = language.suggestQuery first) :
    language.suggest files second =
      (language.suggest files first).map (·.relocate (language.suggestSpan second)) := by
  rw [suggestQuery, suggestQuery] at hquery
  simp only [suggest, suggestSpan, hquery, hblocks, hscope]
  split
  · rfl
  · rw [Option.map_map]
    refine congrArg (Option.map · _) (funext ?_)
    rintro (_ | outline) <;> rfl

end Requests

/-- Nothing right of the cursor has an influence on hints, nor on suggestions except for how much of
the text an accepted one replaces.  Nothing of the word at the cursor has an influence on which words
are suggested. -/
theorem answers_left_of_cursor (language : Language) (files : FileTree) (first second : Request)
    (hblocks : second.blocks = first.blocks) (hscope : second.scope = first.scope) :
    (second.cursor = first.cursor → first.cursor ≤ Text.byteLength first.text.toList →
      first.cursor ≤ Text.byteLength second.text.toList →
      (utf8Bytes second.text).take first.cursor = (utf8Bytes first.text).take first.cursor →
      language.hint second = language.hint first ∧
      Option.Rel (fun answer other => other = { answer with replaceLength := other.replaceLength })
        (language.suggest files first) (language.suggest files second)) ∧
    ((language.typedQuery second).words.length = (language.typedQuery first).words.length →
      (language.typedQuery second).words.dropLast = (language.typedQuery first).words.dropLast →
      (language.typedQuery first).isInclude language.settings.includeCommands = false →
      (language.typedQuery second).isInclude language.settings.includeCommands = false →
      Option.Rel (fun answer other => other.suggestions = answer.suggestions ∧
          other.lastToken = answer.lastToken)
        (language.suggest files first) (language.suggest files second)) := by
  constructor
  · intro hcursor hfirst hsecond hbytes
    have hcongr := Reading.ofText_congr hsecond hfirst hbytes
    have htyped : language.typedQuery second = language.typedQuery first := by
      rw [typedQuery, hcursor]
      exact (hcongr ..).1
    have hquery : language.suggestQuery second = language.suggestQuery first := by
      rw [suggestQuery, hcursor]
      exact (hcongr ..).1
    have hstart : (language.suggestSpan second).start = (language.suggestSpan first).start := by
      rw [suggestSpan, hcursor]
      exact (hcongr ..).2
    refine ⟨hint_congr language hblocks hscope htyped, ?_⟩
    have hanswer : language.suggest files first =
        (language.suggest files first).map (·.relocate (language.suggestSpan first)) :=
      suggest_eq_relocate language rfl rfl files rfl
    rw [suggest_eq_relocate language hblocks hscope files hquery, hanswer]
    cases language.suggest files first with
    | none => exact .none
    | some answer => exact .some (by simp only [Completion.relocate, hstart])
  · intro hlength hwords hfirst hsecond
    have hquery : language.suggestQuery second = language.suggestQuery first := by
      rw [suggestQuery_of_not_isInclude hfirst, suggestQuery_of_not_isInclude hsecond, hwords,
        hlength]
    rw [suggest_eq_relocate language hblocks hscope files hquery]
    cases language.suggest files first with
    | none => exact .none
    | some answer => exact .some ⟨rfl, rfl⟩

/-- The cursor cuts `é` and `è` in two after the byte that they share, and what follows makes no
difference; neither does what was begun of the second word. -/
theorem answers_left_of_cursor_nestedLanguage :
    (∃ answer, nestedLanguage.hint ⟨"a é", 3, [], none⟩ = some answer ∧
      nestedLanguage.hint ⟨"a è b", 3, [], none⟩ = some answer) ∧
    ∃ answer other, nestedLanguage.suggest {} nestedRequest = some answer ∧
      nestedLanguage.suggest {} ⟨" a  xyz c", 6, [], none⟩ = some other ∧
      "y" ∈ answer.suggestions ∧ other.suggestions = answer.suggestions ∧
      other.lastToken = answer.lastToken := by
  obtain ⟨hright, -⟩ := answers_left_of_cursor nestedLanguage {} ⟨"a é", 3, [], none⟩
    ⟨"a è b", 3, [], none⟩ rfl rfl
  obtain ⟨-, hword⟩ := answers_left_of_cursor nestedLanguage {} nestedRequest
    ⟨" a  xyz c", 6, [], none⟩ rfl rfl
  constructor
  · have hsame := (hright rfl (by decide +kernel) (by decide +kernel) (by decide +kernel)).1
    have hsome : (nestedLanguage.hint ⟨"a é", 3, [], none⟩).isSome = true := by decide +kernel
    obtain ⟨answer, hanswer⟩ := Option.isSome_iff_exists.1 hsome
    exact ⟨answer, hanswer, hsame.trans hanswer⟩
  · have hrel := hword (by decide +kernel) (by decide +kernel) (by decide +kernel)
      (by decide +kernel)
    obtain ⟨answer, hanswer, hy⟩ := mem_suggestions_nestedRequest
    rw [hanswer] at hrel
    cases hother : nestedLanguage.suggest {} ⟨" a  xyz c", 6, [], none⟩ with
    | none =>
        rw [hother] at hrel
        cases hrel
    | some other =>
        rw [hother] at hrel
        cases hrel with
        | some hequal => exact ⟨answer, other, hanswer, rfl, hy, hequal⟩

end Language

end Typeahead
