/-
What a reading is, in bytes.

The words before the cursor are the runs of the bytes before it, each read as text on its own.  A
cursor that stands apart from these words starts an empty word, and an accepted suggestion replaces
nothing.  Otherwise the last word is the one at the cursor, and what is replaced is the run of the
whole text that the byte before the cursor belongs to.  Nothing is left open by this: a reading for
hints is the only one that fits.

Separators are single bytes, and no byte of another character is one, so that cutting bytes and
cutting characters comes to the same.

Main definitions:

* `Typeahead.Text.HasWords` — the words that a list of bytes holds;
* `Typeahead.Reading.StandsApart` — the cursor is apart from every word before it;
* `Typeahead.Reading.Tokenizes` — the words before the cursor and the stretch that is replaced.

Main results:

* `Typeahead.Text.hasWords_finishedWords` — finished words are what their bytes hold;
* `Typeahead.Reading.Tokenizes.unique` — there is one reading only;
* `Typeahead.Reading.ofText_eq_iff_tokenizes` — the reading of a text.
-/

import Typeahead.Proofs.ByteRuns
import Typeahead.Proofs.LossyDecoding
import Typeahead.Proofs.WordSpans

set_option relaxedAutoImplicit false
set_option autoImplicit false

namespace Typeahead

namespace Text

/-! ### Bytes of words -/

/-- A byte of a character separates words exactly if the character does. -/
theorem isSeparatorByte_of_mem {c : Char} {byte : UInt8} (h : byte ∈ String.utf8EncodeChar c) :
    isSeparatorByte byte = isSeparator c := by
  have hc : ∀ d : Char, c = d ↔ c.val.toNat = d.val.toNat := fun d => Char.toNat_inj.symm
  rw [Bool.eq_iff_iff]
  simp only [isSeparatorByte, isSeparator, Bool.or_eq_true, beq_iff_eq, hc, ← UInt8.toNat_inj]
  simp only [String.utf8EncodeChar] at h
  generalize c.val.toNat = n at *
  -- the bytes of a character that takes more than one are all large
  split_ifs at h <;>
    simp only [List.mem_cons, List.not_mem_nil, or_false] at h <;>
    rcases h with rfl | rfl | rfl | rfl <;>
    simp only [UInt8.toNat_ofNat', UInt8.reduceToNat, Char.reduceVal, UInt32.reduceToNat] <;>
    omega

theorem isSeparatorByte_of_unbroken {word : List Char} (h : Unbroken word) :
    ∀ byte ∈ encoded word, isSeparatorByte byte = false := by
  intro byte hbyte
  obtain ⟨c, hc, hbyte⟩ := List.mem_flatMap.1 hbyte
  rw [isSeparatorByte_of_mem hbyte, h c hc]

theorem encoded_ne_nil {word : List Char} (h : word ≠ []) : encoded word ≠ [] := by
  rw [← List.length_pos_iff, length_encoded]
  exact byteLength_pos h

/-- The first byte of a character tells whether the character is a separator. -/
theorem inWord_encoded_cons (c : Char) (cs : List Char) :
    InWord (encoded (c :: cs)) 0 ↔ isSeparator c = false := by
  obtain ⟨byte, bytes, hbytes⟩ := List.exists_cons_of_ne_nil (@String.utf8EncodeChar_ne_nil c)
  have hbyte : isSeparatorByte byte = isSeparator c :=
    isSeparatorByte_of_mem (hbytes ▸ List.mem_cons_self)
  rw [encoded_cons, hbytes, InWord, List.cons_append, List.getElem?_cons_zero]
  simp only [Option.some.injEq, exists_eq_left', hbyte]

/-- A separator is the last byte before the place where a word may start. -/
theorem StartsWord.not_inWord {before : List Char} (h : StartsWord before) :
    ¬ InWord (encoded before) ((encoded before).length - 1) := by
  cases h with
  | nil => exact fun hin => Nat.not_lt_zero _ hin.lt
  | @separator front c hc =>
      have hsize := utf8Size_of_isSeparator hc
      have hlast : (encoded (front ++ [c])).length - 1 = (encoded front).length + 0 := by
        rw [encoded_append, List.length_append, length_encoded [c], byteLength_cons, hsize]
        rfl
      rw [hlast, encoded_append, inWord_append_add, inWord_encoded_cons, hc]
      exact Bool.true_eq_false_eq_False

theorem StartsWord.parted {before : List Char} (h : StartsWord before) (bytes : List UInt8) :
    Parted (encoded before) bytes := fun hin => absurd hin h.not_inWord

theorem EndsWord.parted {after : List Char} (h : EndsWord after) (bytes : List UInt8) :
    Parted bytes (encoded after) := by
  intro _ hin
  cases after with
  | nil => exact Nat.not_lt_zero _ hin.lt
  | cons c after =>
      rw [inWord_encoded_cons, h c rfl] at hin
      cases hin

/-! ### Words of bytes -/

/-- The words that the bytes hold: their runs, each read as text. -/
def HasWords (bytes : List UInt8) (words : List (List Char)) : Prop :=
  ∃ runs, ListsRuns bytes runs ∧ List.Forall₂ ReadsAsText (runs.map (·.slice bytes)) words

variable {bytes before after : List UInt8} {words words' : List (List Char)}

/-- Bytes hold one list of words only. -/
theorem HasWords.unique (h : HasWords bytes words) (h' : HasWords bytes words') :
    words = words' := by
  obtain ⟨runs, hruns, hwords⟩ := h
  obtain ⟨runs', hruns', hwords'⟩ := h'
  obtain rfl := hruns.unique hruns'
  have hreads : Relator.RightUnique ReadsAsText :=
    fun _ _ _ hread hread' => hread.unique hread' rfl
  exact hreads.forall₂ hwords hwords'

/-- The words of bytes that are put together between two words. -/
theorem HasWords.append (h : HasWords before words) (h' : HasWords after words')
    (hparted : Parted before after) : HasWords (before ++ after) (words ++ words') := by
  obtain ⟨runs, hruns, hwords⟩ := h
  obtain ⟨runs', hruns', hwords'⟩ := h'
  have hleft : runs.map (·.slice (before ++ after)) = runs.map (·.slice before) :=
    List.map_congr_left fun run hrun =>
      Span.slice_append_left ((hruns.mem_iff run).1 hrun).stop_le after
  have hright : (runs'.map (Span.shift before.length)).map (·.slice (before ++ after)) =
      runs'.map (·.slice after) := by
    rw [List.map_map]
    exact List.map_congr_left fun run _ => Span.slice_append_right run before after
  refine ⟨_, hruns.append hruns' hparted, ?_⟩
  rw [List.map_append, hleft, hright]
  exact List.rel_append hwords hwords'

theorem hasWords_separators (h : ∀ byte ∈ bytes, isSeparatorByte byte = true) :
    HasWords bytes [] := ⟨[], listsRuns_separators h, .nil⟩

/-- Bytes without separators are one word. -/
theorem hasWords_unbroken {word : List Char} (hne : bytes ≠ [])
    (h : ∀ byte ∈ bytes, isSeparatorByte byte = false) (hread : ReadsAsText bytes word) :
    HasWords bytes [word] := by
  refine ⟨_, listsRuns_unbroken hne h, .cons ?_ .nil⟩
  simpa only [Span.slice, List.take_length, List.drop_zero] using hread

/-- The bytes of a word that may be empty. -/
theorem hasWords_encoded {word : List Char} (h : Unbroken word) :
    HasWords (encoded word) ([word].filter fun field => !field.isEmpty) := by
  by_cases hne : word = []
  · subst hne
    exact hasWords_separators nofun
  · have hread := readsAsText_append word .nil
    rw [List.append_nil, List.append_nil] at hread
    rw [List.filter_singleton, List.isEmpty_eq_false_iff.2 hne]
    exact hasWords_unbroken (encoded_ne_nil hne) (isSeparatorByte_of_unbroken h) hread

/-- The words before a place where a word may start. -/
theorem hasWords_finishedWords {before : List Char} (h : StartsWord before) :
    HasWords (encoded before) (finishedWords before) := by
  -- by the number of characters: a separator and the word before it are taken off
  induction hlength : before.length using Nat.strong_induction_on generalizing before with
  | _ n ih =>
      cases h with
      | nil => exact hasWords_separators nofun
      | @separator front c hc =>
          obtain ⟨front, word, rfl, hfront, hword⟩ := exists_startsWord_append front
          have hshorter : front.length < n := by
            rw [← hlength]
            simp only [List.length_append, List.length_singleton]
            omega
          have hsep : HasWords (encoded [c]) [] := by
            refine hasWords_separators fun byte hbyte => ?_
            rw [encoded_cons, encoded_nil, List.append_nil] at hbyte
            rw [isSeparatorByte_of_mem hbyte, hc]
          have hends : EndsWord [c] := by
            rintro d ⟨⟩
            exact hc
          have hwords := ((ih _ hshorter hfront rfl).append (hasWords_encoded hword)
            (hfront.parted _)).append hsep (hends.parted _)
          rwa [List.append_nil, ← encoded_append, ← encoded_append,
            ← finishedWords_concat hfront hword hc] at hwords

end Text

namespace Reading

open Text

/-! ### Bytes before the cursor -/

/-- What shows before the cursor is what the bytes before it are read as. -/
theorem readsAsText_take {cs : List Char} {n : Nat} (h : n ≤ byteLength cs) :
    ReadsAsText ((encoded cs).take n) (visible cs n) := by
  obtain ⟨first, rest, hsplit, rfl⟩ := exists_splitAtByte_eq n cs
  have hfirst : byteLength first ≤ n := by
    have hle := byteLength_splitAtByte_le n (first ++ rest)
    rwa [hsplit] at hle
  rw [visible, gap_of_le h, hsplit, encoded_append, List.take_append,
    List.take_of_length_le (by rwa [length_encoded]), length_encoded]
  refine readsAsText_append first ?_
  rcases hfirst.lt_or_eq with hlt | heq
  · -- the cursor is inside the next character
    rw [if_pos hlt]
    cases rest with
    | nil =>
        rw [List.append_nil] at h
        omega
    | cons c rest =>
        have hnext : (splitAtByte n (first ++ c :: rest)).2 = c :: rest := by rw [hsplit]
        have hc : n < byteLength first + c.utf8Size := by
          have hlt' := lt_of_splitAtByte_snd hnext
          rwa [hsplit] at hlt'
        rw [encoded_cons,
          List.take_append_of_le_length (by rw [String.length_utf8EncodeChar]; omega)]
        exact readsAsText_cut (Nat.sub_pos_of_lt hlt) (by omega)
  · rw [heq, Nat.sub_self, if_neg (lt_irrefl n)]
    exact .nil

/-- The cursor is apart from every word before it: there is nothing before it, or a separator is
right before it, or it is beyond the end. -/
def StandsApart (bytes : List UInt8) (cursor : Nat) : Prop :=
  bytes.take cursor = [] ∨
    (∃ byte, (bytes.take cursor).getLast? = some byte ∧ isSeparatorByte byte = true) ∨
    bytes.length < cursor

/-- The words before the cursor, of which the last is the one at the cursor, and the stretch that
an accepted suggestion replaces. -/
inductive Tokenizes (bytes : List UInt8) (cursor : Nat) : List (List Char) → Span → Prop
  | apart {words : List (List Char)} : StandsApart bytes cursor →
      HasWords (bytes.take cursor) words →
      Tokenizes bytes cursor (words ++ [[]]) ⟨cursor, cursor⟩
  | inside {words : List (List Char)} {span : Span} : ¬ StandsApart bytes cursor →
      HasWords (bytes.take cursor) words →
      IsRun bytes span → span.start ≤ cursor - 1 → cursor - 1 < span.stop →
      Tokenizes bytes cursor words span

/-- A cursor that does not stand apart has a byte of a word right before it. -/
theorem standsApart_iff {bytes : List UInt8} {cursor : Nat} :
    StandsApart bytes cursor ↔ (0 < cursor → ¬ InWord bytes (cursor - 1)) := by
  rw [StandsApart, List.take_eq_nil_iff, List.getLast?_take]
  rcases Nat.eq_zero_or_pos cursor with rfl | hpos
  · simp
  rw [if_neg hpos.ne']
  rcases Nat.lt_or_ge bytes.length cursor with hlt | hle
  · -- beyond the end there is no byte before the cursor
    have hnot : ¬ InWord bytes (cursor - 1) := fun hin => by
      have := hin.lt
      omega
    exact iff_of_true (.inr (.inr hlt)) fun _ => hnot
  · have hbyte : bytes[cursor - 1]? = some bytes[cursor - 1] :=
      List.getElem?_eq_getElem (by omega)
    have hne : bytes ≠ [] := List.length_pos_iff.1 (by omega)
    simp [InWord, hbyte, hne, hpos, hpos.ne', Nat.not_lt.2 hle]

/-- The bytes and the cursor leave one reading only. -/
theorem Tokenizes.unique {bytes : List UInt8} {cursor : Nat} {words words' : List (List Char)}
    {span span' : Span} (h : Tokenizes bytes cursor words span)
    (h' : Tokenizes bytes cursor words' span') : words = words' ∧ span = span' := by
  cases h with
  | apart hapart hwords =>
      cases h' with
      | apart _ hwords' => exact ⟨by rw [hwords.unique hwords'], rfl⟩
      | inside hnot => exact absurd hapart hnot
  | inside hnot hwords hrun hstart hstop =>
      cases h' with
      | apart hapart => exact absurd hapart hnot
      | inside _ hwords' hrun' hstart' hstop' =>
          exact ⟨hwords.unique hwords', hrun.eq_of_mem hrun' hstart hstop hstart' hstop'⟩

/-! ### Readings -/

section

variable {text typed : List Char} {cursor number : Nat} {span : Span}

/-- A word of a text is a run of its bytes. -/
theorem isRun_of_hasWord {before word after : List Char}
    (h : HasWord text number before word after) :
    IsRun (encoded text) ⟨byteLength before, byteLength (before ++ word)⟩ := by
  have hword := isRun_unbroken (encoded_ne_nil h.ne_nil) (isSeparatorByte_of_unbroken h.unbroken)
  have hrun := (hword.append_left (h.ends.parted _)).append_right (h.starts.parted _)
  rwa [← encoded_append, ← encoded_append, ← List.append_assoc, ← h.text_eq, Span.shift,
    length_encoded, length_encoded, Nat.add_zero, ← byteLength_append] at hrun

section Within

variable {before word after : List Char} (h : HasWord text number before word after)
  (hcursor : byteLength before < cursor) (hle : cursor ≤ byteLength (before ++ word))
include h hcursor hle

/-- With the cursor at a word, the finished words are those before this word. -/
theorem finishedWords_visible_of_hasWord :
    finishedWords (visible text cursor) = finishedWords before := by
  have hword : cursor - byteLength before ≤ byteLength word := by
    rw [byteLength_append] at hle
    omega
  rw [h.text_eq, visible_within hcursor hle,
    finishedWords_append h.starts (unbroken_visible h.unbroken hword)]

/-- With the cursor at a word, the bytes before the cursor end with what is typed of it. -/
theorem hasWords_take_of_hasWord : HasWords ((encoded text).take cursor)
    (finishedWords before ++ [visible word (cursor - byteLength before)]) := by
  have hword : cursor - byteLength before ≤ byteLength word := by
    rw [byteLength_append] at hle
    omega
  have hbegun : HasWords ((encoded word).take (cursor - byteLength before))
      [visible word (cursor - byteLength before)] := by
    refine hasWords_unbroken ?_ ?_ (readsAsText_take hword)
    · rw [← List.length_pos_iff, List.length_take, length_encoded]
      omega
    · intro byte hbyte
      exact isSeparatorByte_of_unbroken h.unbroken byte (List.mem_of_mem_take hbyte)
  rw [h.text_eq, List.append_assoc, encoded_append, encoded_append, List.take_append,
    List.take_of_length_le (by rw [length_encoded]; exact hcursor.le), length_encoded,
    List.take_append_of_le_length (by rwa [length_encoded])]
  exact (hasWords_finishedWords h.starts).append hbegun (h.starts.parted _)

end Within

/-- A reading says what the bytes before the cursor hold. -/
theorem AtCursor.tokenizes (h : AtCursor text cursor number typed span) :
    Tokenizes (encoded text) cursor (finishedWords (visible text cursor) ++ [typed]) span := by
  cases h with
  | @word before word after number hhas hcursor hle =>
      have hrun := isRun_of_hasWord hhas
      have hstart : byteLength before ≤ cursor - 1 := Nat.le_sub_one_of_lt hcursor
      have hstop : cursor - 1 < byteLength (before ++ word) := by omega
      rw [finishedWords_visible_of_hasWord hhas hcursor hle]
      refine .inside ?_ (hasWords_take_of_hasWord hhas hcursor hle) hrun hstart hstop
      rw [standsApart_iff]
      exact fun hnot => hnot (by omega) (hrun.inWord _ hstart hstop)
  | @between before after htext hcursor hbefore =>
      have htake : (encoded text).take cursor = encoded before := by
        rw [htext, encoded_append, ← hcursor, ← length_encoded, List.take_left]
      rw [htext, visible_of_byteLength_eq hcursor, ← htext]
      refine .apart (standsApart_iff.2 fun hpos hin => ?_)
        (htake ▸ hasWords_finishedWords hbefore)
      rw [htext, encoded_append, ← hcursor, ← length_encoded,
        inWord_append_of_lt (by rw [length_encoded]; omega)] at hin
      exact hbefore.not_inWord hin
  | beyond hbeyond =>
      have htake : (encoded text).take cursor = encoded text :=
        List.take_of_length_le (by rw [length_encoded]; omega)
      rw [visible_of_lt hbeyond]
      refine .apart (.inr (.inr (by rwa [length_encoded]))) ?_
      obtain ⟨before, word, rfl, hbefore, hword⟩ := exists_startsWord_append text
      have hwords := (hasWords_finishedWords hbefore).append (hasWords_encoded hword)
        (hbefore.parted _)
      rwa [← encoded_append, ← finishedWords_concat hbefore hword (c := ' ') rfl, ← htake] at hwords

theorem tokenizes_typedWords (text : List Char) (cursor : Nat) :
    Tokenizes (encoded text) cursor (typedWords text cursor) (activeSpan text cursor) := by
  obtain ⟨number, typed, span, h⟩ := exists_atCursor text cursor
  obtain ⟨-, rfl, rfl⟩ := h.reading_eq
  exact h.tokenizes

end

/-- The reading for suggestions that goes with a reading for hints: the last word is emptied unless
the first one takes a file to include. -/
def forSuggestions (reading : Reading) (commands : List String) : Reading :=
  let words := if reading.query.isInclude commands then reading.query.words
    else reading.query.words.dropLast ++ [""]
  { reading with query := { reading.query with words := words, mode := .suggest } }

theorem ofText_hint (text : String) (cursor : Nat) (commands : List String) :
    ofText text cursor .hint commands =
      ⟨⟨(typedWords text.toList cursor).map String.ofList,
        (finishedWords (visible text.toList cursor)).length, .hint⟩,
        activeSpan text.toList cursor⟩ := by
  have hlength : ((typedWords text.toList cursor).map String.ofList).length - 1 =
      (finishedWords (visible text.toList cursor)).length := by
    rw [List.length_map, typedWords, List.length_append, List.length_singleton,
      Nat.add_sub_cancel]
  rw [← hlength]
  rfl

theorem ofText_suggest (text : String) (cursor : Nat) (commands : List String) :
    ofText text cursor .suggest commands =
      (ofText text cursor .hint commands).forSuggestions commands := by
  have hmode : (Mode.suggest == Mode.hint) = false := rfl
  -- whether a file is included depends on the words only
  have hinclude : ∀ words active, (⟨words, active, .suggest⟩ : Query).isInclude commands =
      (⟨words, active, .hint⟩ : Query).isInclude commands := fun _ _ => rfl
  simp only [ofText, forSuggestions, beq_self_eq_true, Bool.true_or, if_true, hmode, Bool.false_or,
    hinclude]
  split <;> rfl

/-- For hints a text is read as its bytes say, with the last word as the active one.  For
suggestions it is read the same, except that the last word may be emptied. -/
theorem ofText_eq_iff_tokenizes (text : String) (cursor : Nat) (commands : List String) :
    (∀ reading, ofText text cursor .hint commands = reading ↔
      Tokenizes (utf8Bytes text) cursor (reading.query.words.map String.toList) reading.span ∧
        reading.query.active + 1 = reading.query.words.length ∧ reading.query.mode = .hint) ∧
    ofText text cursor .suggest commands =
      (ofText text cursor .hint commands).forSuggestions commands := by
  refine ⟨fun reading => ?_, ofText_suggest text cursor commands⟩
  have hread := tokenizes_typedWords text.toList cursor
  have hlength : (typedWords text.toList cursor).length =
      (finishedWords (visible text.toList cursor)).length + 1 := by
    rw [typedWords, List.length_append, List.length_singleton]
  rw [utf8Bytes_eq_encoded, ofText_hint]
  constructor
  · rintro rfl
    refine ⟨?_, by rw [List.length_map, hlength], rfl⟩
    simpa only [List.map_map, Function.comp_def, String.toList_ofList, List.map_id'] using hread
  · obtain ⟨⟨words, active, mode⟩, span⟩ := reading
    rintro ⟨hreading, hactive, rfl⟩
    obtain ⟨hwords, rfl⟩ := hread.unique hreading
    have hwords' : (typedWords text.toList cursor).map String.ofList = words := by
      rw [hwords, List.map_map]
      simp only [Function.comp_def, String.ofList_toList, List.map_id']
    rw [hwords']
    have hactive' : active + 1 = words.length := hactive
    rw [← hwords', List.length_map, hlength] at hactive'
    rw [Nat.add_right_cancel hactive']

end Reading

end Typeahead
