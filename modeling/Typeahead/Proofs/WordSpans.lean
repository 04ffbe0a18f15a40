/-
The word at the cursor.

A word of a text is a stretch without separators that cannot be made longer.  A reading tells which
word the cursor is at, what is typed of it before the cursor, and the bytes it takes up.  All three
are fixed by where the cursor stands: inside a word or right behind it, at a place where a word may
start, or beyond the end of the text.

Main definitions:

* `Typeahead.Text.HasWord` — a word of a text, with its number;
* `Typeahead.Reading.AtCursor` — where a cursor stands, and what that makes of the text.

Main results:

* `Typeahead.Reading.exists_hasWord_of_finishedWords` — every finished word is a word of the text;
* `Typeahead.Reading.atCursor_iff` — the number of finished words, what is typed at the cursor and
  the span of a reading are those of the place where the cursor stands.
-/

import Typeahead.Proofs.LeftOfCursor

set_option relaxedAutoImplicit false
set_option autoImplicit false

namespace Typeahead

namespace Text

/-! ### Fields -/

/-- No character of the text is a separator. -/
def Unbroken (cs : List Char) : Prop := ∀ c ∈ cs, isSeparator c = false

/-- A word may start behind the text. -/
inductive StartsWord : List Char → Prop
  | nil : StartsWord []
  | separator {front : List Char} {c : Char} : isSeparator c = true → StartsWord (front ++ [c])

/-- A word may end before the text. -/
def EndsWord (cs : List Char) : Prop := ∀ c, cs.head? = some c → isSeparator c = true

theorem unbroken_nil : Unbroken [] := fun _ hc => absurd hc List.not_mem_nil

theorem unbroken_append {cs ds : List Char} :
    Unbroken (cs ++ ds) ↔ Unbroken cs ∧ Unbroken ds := List.forall_mem_append

theorem unbroken_singleton {c : Char} : Unbroken [c] ↔ isSeparator c = false :=
  List.forall_mem_singleton

theorem fields_of_unbroken {cs : List Char} (h : Unbroken cs) : fields cs = [cs] :=
  List.splitOnP_eq_singleton h

section Field

variable {before word : List Char} (hbefore : StartsWord before) (hword : Unbroken word)
include hbefore hword

theorem fields_append : fields (before ++ word) = (fields before).dropLast ++ [word] := by
  cases hbefore with
  | nil => rw [List.nil_append, fields_of_unbroken hword]; rfl
  | @separator front c hc =>
      have hnil : (front ++ [c]).splitOnP isSeparator = front.splitOnP isSeparator ++ [[]] :=
        List.splitOnP_append_cons front [] hc
      rw [fields, List.append_assoc, List.singleton_append, List.splitOnP_append_cons _ _ hc, fields,
        hnil,
        List.dropLast_concat, ← fields, ← fields, fields_of_unbroken hword]

theorem lastField_append : lastField (before ++ word) = word := by
  simp only [lastField, fields_append hbefore hword, List.getLast_append_singleton]

theorem finishedWords_append : finishedWords (before ++ word) = finishedWords before := by
  rw [finishedWords, fields_append hbefore hword, List.dropLast_concat, finishedWords]

end Field

/-- Every text ends with the start of a word, which may be empty. -/
theorem exists_startsWord_append (cs : List Char) :
    ∃ before word, cs = before ++ word ∧ StartsWord before ∧ Unbroken word := by
  induction cs using List.reverseRecOn with
  | nil => exact ⟨[], [], rfl, .nil, unbroken_nil⟩
  | append_singleton cs c ih =>
      cases hc : isSeparator c with
      | true =>
          exact ⟨cs ++ [c], [], (List.append_nil _).symm, .separator hc, unbroken_nil⟩
      | false =>
          obtain ⟨before, word, rfl, hbefore, hword⟩ := ih
          exact ⟨before, word ++ [c], List.append_assoc .., hbefore,
            unbroken_append.2 ⟨hword, unbroken_singleton.2 hc⟩⟩

/-- Every text starts with the rest of a word, which may be empty. -/
theorem exists_append_endsWord (cs : List Char) :
    ∃ word after, cs = word ++ after ∧ Unbroken word ∧ EndsWord after := by
  refine ⟨cs.takeWhile fun c => !isSeparator c, cs.dropWhile fun c => !isSeparator c,
    List.takeWhile_append_dropWhile.symm, ?_, ?_⟩
  · intro c hc
    simpa using List.all_eq_true.1 List.all_takeWhile c hc
  · intro c hc
    have hnot := List.head?_dropWhile_not (fun c => !isSeparator c) cs
    rw [hc] at hnot
    simpa using hnot

theorem takeWhile_append {word after : List Char} (hword : Unbroken word)
    (hafter : EndsWord after) :
    (word ++ after).takeWhile (fun c => !isSeparator c) = word := by
  have hend : after.takeWhile (fun c => !isSeparator c) = [] := by
    cases after with
    | nil => rfl
    | cons c after => rw [List.takeWhile_cons, hafter c rfl, if_neg (by decide)]
  rw [List.takeWhile_append_of_pos fun c hc => by rw [hword c hc]; rfl, hend, List.append_nil]

/-- A separator finishes the word before it. -/
theorem finishedWords_concat {before word : List Char} (hbefore : StartsWord before)
    (hword : Unbroken word) {c : Char} (hc : isSeparator c = true) :
    finishedWords (before ++ word ++ [c]) =
      finishedWords before ++ [word].filter fun field => !field.isEmpty := by
  have hfields : fields (before ++ word ++ [c]) = fields (before ++ word) ++ [[]] :=
    List.splitOnP_append_cons (before ++ word) [] hc
  rw [finishedWords, hfields, List.dropLast_concat, fields_append hbefore hword,
    List.filter_append, finishedWords]

/-! ### Words -/

/-- The word with the given number, between the text before it and the text after it. -/
structure HasWord (text : List Char) (number : Nat) (before word after : List Char) : Prop where
  text_eq : text = before ++ word ++ after
  ne_nil : word ≠ []
  unbroken : Unbroken word
  starts : StartsWord before
  ends : EndsWord after
  number_eq : (finishedWords before).length = number

/-- Text may follow that leaves the words as they are. -/
theorem HasWord.append {text more before word after : List Char} {number : Nat}
    (h : HasWord text number before word after) (hends : EndsWord (after ++ more)) :
    HasWord (text ++ more) number before word (after ++ more) :=
  { h with
    text_eq := by rw [h.text_eq, List.append_assoc _ after]
    ends := hends }

theorem EndsWord.append {after : List Char} (h : EndsWord after) (hafter : after ≠ [])
    (more : List Char) : EndsWord (after ++ more) := by
  intro c hc
  rw [List.head?_append_of_ne_nil _ hafter] at hc
  exact h c hc

/-- A finished word is a word of the text, and something follows it. -/
theorem exists_hasWord_of_finishedWords {cs word : List Char} {number : Nat}
    (h : (finishedWords cs)[number]? = some word) :
    ∃ before after, HasWord cs number before word after ∧ after ≠ [] := by
  induction cs using List.reverseRecOn with
  | nil => cases h
  | append_singleton cs c ih =>
      have hmore : (finishedWords cs)[number]? = some word →
          ∃ before after, HasWord (cs ++ [c]) number before word after ∧ after ≠ [] := by
        intro hword
        obtain ⟨before, after, hhas, hafter⟩ := ih hword
        exact ⟨before, after ++ [c], hhas.append (hhas.ends.append hafter [c]), by simp⟩
      obtain ⟨before, last, rfl, hbefore, hlast⟩ := exists_startsWord_append cs
      cases hc : isSeparator c with
      | false =>
          have hlast' : Unbroken (last ++ [c]) :=
            unbroken_append.2 ⟨hlast, unbroken_singleton.2 hc⟩
          rw [List.append_assoc, finishedWords_append hbefore hlast'] at h
          exact hmore (by rwa [finishedWords_append hbefore hlast])
      | true =>
          rw [finishedWords_concat hbefore hlast hc, List.getElem?_append] at h
          split at h
          · exact hmore (by rwa [finishedWords_append hbefore hlast])
          · next hnumber =>
              -- the word that the separator finishes
              cases last with
              | nil => simp at h
              | cons d last =>
                  have hsub : number - (finishedWords before).length = 0 := by
                    rw [List.getElem?_eq_some_iff] at h
                    obtain ⟨hlt, -⟩ := h
                    simpa using hlt
                  rw [hsub] at h
                  obtain rfl : d :: last = word := by simpa using h
                  refine ⟨before, [c], ⟨rfl, by simp, hlast, hbefore, ?_, by omega⟩, by simp⟩
                  intro e he
                  obtain rfl : c = e := by simpa using he
                  exact hc

/-! ### Offsets -/

theorem exists_splitAtByte_eq (n : Nat) (cs : List Char) :
    ∃ first rest, splitAtByte n cs = (first, rest) ∧ first ++ rest = cs :=
  ⟨_, _, rfl, splitAtByte_append n cs⟩

/-- An offset behind a text splits what follows the text. -/
theorem splitAtByte_append_add (before cs : List Char) (n : Nat) :
    splitAtByte (byteLength before + n) (before ++ cs) =
      (before ++ (splitAtByte n cs).1, (splitAtByte n cs).2) := by
  induction before with
  | nil => rw [byteLength_nil, Nat.zero_add, List.nil_append, List.nil_append]
  | cons c before ih =>
      have hsub : c.utf8Size + byteLength before + n - c.utf8Size = byteLength before + n := by
        omega
      rw [byteLength_cons, List.cons_append, splitAtByte, if_pos (by omega), hsub, ih,
        List.cons_append]

/-- An offset inside a text splits it the same whatever follows. -/
theorem splitAtByte_append_of_le {cs : List Char} {n : Nat} (h : n ≤ byteLength cs)
    (after : List Char) :
    splitAtByte n (cs ++ after) = ((splitAtByte n cs).1, (splitAtByte n cs).2 ++ after) := by
  induction cs generalizing n with
  | nil =>
      obtain rfl : n = 0 := Nat.le_zero.1 h
      rw [splitAtByte, List.nil_append]
      cases after with
      | nil => rfl
      | cons c after => rw [splitAtByte, if_neg (Nat.not_le.2 c.utf8Size_pos)]
  | cons c cs ih =>
      rw [byteLength_cons] at h
      rw [List.cons_append, splitAtByte, splitAtByte]
      split
      · rw [ih (by omega)]
      · rw [List.cons_append]

theorem byteLength_pos {cs : List Char} (h : cs ≠ []) : 0 < byteLength cs := by
  obtain ⟨c, cs, rfl⟩ := List.exists_cons_of_ne_nil h
  have hc := c.utf8Size_pos
  rw [byteLength_cons]
  omega

/-- Two starts of a text that end at the same offset are the same. -/
theorem byteLength_inj_of_append {before before' cs cs' : List Char}
    (h : before ++ cs = before' ++ cs') (hlength : byteLength before = byteLength before') :
    before = before' := by
  have hsplit := splitAtByte_append_add before cs 0
  rw [h, hlength, splitAtByte_append_add, Prod.mk.injEq, splitAtByte_zero, splitAtByte_zero,
    List.append_nil, List.append_nil] at hsplit
  exact hsplit.1.symm

/-- The first character behind an offset ends behind it. -/
theorem lt_of_splitAtByte_snd {cs rest : List Char} {n : Nat} {c : Char}
    (h : (splitAtByte n cs).2 = c :: rest) :
    n < byteLength (splitAtByte n cs).1 + c.utf8Size := by
  induction cs generalizing n with
  | nil => cases h
  | cons d cs ih =>
      rw [splitAtByte] at h ⊢
      split at h
      · next hd =>
          rw [if_pos hd]
          have := ih h
          simp only [byteLength_cons]
          omega
      · next hd =>
          rw [if_neg hd, byteLength_nil]
          cases h
          omega

theorem utf8Size_of_isSeparator {c : Char} (h : isSeparator c = true) : c.utf8Size = 1 := by
  simp only [isSeparator, Bool.or_eq_true, beq_iff_eq] at h
  obtain ((rfl | rfl) | rfl) | rfl := h <;> rfl

/-- A character that an offset cuts in two is part of the word there. -/
theorem le_of_splitAtByte_eq {cs first ending after : List Char} {n : Nat}
    (h : splitAtByte n cs = (first, ending ++ after)) (hafter : EndsWord after)
    (hn : n ≤ byteLength cs) : n ≤ byteLength first + byteLength ending := by
  have hfirst : (splitAtByte n cs).1 = first := by rw [h]
  cases ending with
  | cons c ending =>
      have hc : (splitAtByte n cs).2 = c :: (ending ++ after) := by rw [h]; rfl
      have hstop := lt_of_splitAtByte_snd hc
      rw [hfirst] at hstop
      rw [byteLength_cons]
      omega
  | nil =>
      cases after with
      | nil =>
          have hcs : (splitAtByte n cs).1 ++ (splitAtByte n cs).2 = cs := splitAtByte_append n cs
          rw [h, List.append_nil, List.append_nil] at hcs
          rwa [← hcs] at hn
      | cons c after =>
          have hc : (splitAtByte n cs).2 = c :: after := by rw [h]; rfl
          have hstop := lt_of_splitAtByte_snd hc
          rw [hfirst, utf8Size_of_isSeparator (hafter c rfl)] at hstop
          rw [byteLength_nil]
          omega

end Text

namespace Reading

open Text

variable {text before word after typed : List Char} {cursor number : Nat} {span : Span}

/-! ### What is before the cursor -/

theorem gap_eq (before after : List Char) (cursor : Nat) :
    gap before after cursor = [] ∨ gap before after cursor = ['\uFFFD'] ∨
      gap before after cursor = [' '] ∧ after = [] := by
  rw [gap]
  split
  · split
    · next hafter => exact .inr (.inr ⟨rfl, List.isEmpty_iff.1 hafter⟩)
    · exact .inr (.inl rfl)
  · exact .inl rfl

section Within

variable (hcursor : byteLength before < cursor) (hle : cursor ≤ byteLength (before ++ word))
include hcursor hle

/-- A cursor inside a word, or right behind it, splits the word. -/
theorem splitAtByte_within (after : List Char) :
    splitAtByte cursor (before ++ word ++ after) =
      (before ++ (splitAtByte (cursor - byteLength before) word).1,
        (splitAtByte (cursor - byteLength before) word).2 ++ after) := by
  obtain ⟨n, rfl⟩ := Nat.exists_eq_add_of_le hcursor.le
  rw [byteLength_append] at hle
  rw [List.append_assoc before, splitAtByte_append_add, Nat.add_sub_cancel_left,
    splitAtByte_append_of_le (by omega)]

/-- The word shows up to the cursor. -/
theorem visible_within (after : List Char) :
    visible (before ++ word ++ after) cursor =
      before ++ visible word (cursor - byteLength before) := by
  have hword : cursor - byteLength before ≤ byteLength word := by
    rw [byteLength_append] at hle
    omega
  have hlength : cursor ≤ byteLength (before ++ word ++ after) := by
    rw [byteLength_append]
    omega
  have hcut : byteLength before +
      byteLength (splitAtByte (cursor - byteLength before) word).1 < cursor ↔
      byteLength (splitAtByte (cursor - byteLength before) word).1 <
        cursor - byteLength before := by omega
  rw [visible, visible, gap_of_le hlength, gap_of_le hword, splitAtByte_within hcursor hle,
    byteLength_append, List.append_assoc]
  simp only [hcut]

end Within

theorem unbroken_replacement : Unbroken ['\uFFFD'] := unbroken_singleton.2 (by decide)

theorem unbroken_visible (hword : Unbroken word) (hle : cursor ≤ byteLength word) :
    Unbroken (visible word cursor) := by
  rw [visible, gap_of_le hle]
  refine unbroken_append.2 ⟨fun c hc => hword c ?_, ?_⟩
  · rw [← splitAtByte_append cursor word]
    exact List.mem_append_left _ hc
  · split
    · exact unbroken_replacement
    · exact unbroken_nil

theorem visible_ne_nil (hcursor : 0 < cursor) (hle : cursor ≤ byteLength word) :
    visible word cursor ≠ [] := by
  rw [visible, gap_of_le hle]
  intro h
  obtain ⟨hfirst, hgap⟩ := List.append_eq_nil_iff.1 h
  rw [hfirst, byteLength_nil, if_pos hcursor] at hgap
  cases hgap

theorem visible_of_byteLength_eq (h : byteLength before = cursor) (after : List Char) :
    visible (before ++ after) cursor = before := by
  have hsplit : (splitAtByte cursor (before ++ after)).1 = before := by
    rw [← h, ← Nat.add_zero (byteLength before), splitAtByte_append_add, splitAtByte_zero,
      List.append_nil]
  rw [visible, gap, hsplit, if_neg (by omega), List.append_nil]

theorem splitAtByte_of_lt (h : byteLength text < cursor) :
    splitAtByte cursor text = (text, []) := by
  obtain ⟨n, rfl⟩ := Nat.exists_eq_add_of_le h.le
  have hsplit := splitAtByte_append_add text [] n
  rwa [List.append_nil, splitAtByte, List.append_nil] at hsplit

theorem visible_of_lt (h : byteLength text < cursor) : visible text cursor = text ++ [' '] := by
  rw [visible, splitAtByte_of_lt h, gap, if_pos h]
  rfl

/-- Every word that is finished before the cursor is a word of the text. -/
theorem exists_hasWord_of_finishedWords
    (h : (finishedWords (visible text cursor))[number]? = some word) :
    ∃ before after, HasWord text number before word after := by
  obtain ⟨first, rest, hsplit, htext⟩ := exists_splitAtByte_eq cursor text
  rw [visible, hsplit] at h
  -- unless the cursor is beyond the end, the gap finishes no word
  have hfirst : (finishedWords first)[number]? = some word →
      ∃ before after, HasWord text number before word after := by
    intro hword
    obtain ⟨before, after, hhas, hafter⟩ := Text.exists_hasWord_of_finishedWords hword
    exact ⟨before, after ++ rest, htext ▸ hhas.append (hhas.ends.append hafter rest)⟩
  rcases gap_eq first rest cursor with hgap | hgap | ⟨hgap, rfl⟩
  · rw [hgap, List.append_nil] at h
    exact hfirst h
  · rw [hgap] at h
    obtain ⟨before, last, rfl, hbefore, hlast⟩ := exists_startsWord_append first
    have hshown : Unbroken (last ++ ['\uFFFD']) := unbroken_append.2 ⟨hlast, unbroken_replacement⟩
    rw [List.append_assoc, finishedWords_append hbefore hshown] at h
    exact hfirst (by rwa [finishedWords_append hbefore hlast])
  · rw [hgap] at h
    obtain ⟨before, after, hhas, hafter⟩ := Text.exists_hasWord_of_finishedWords h
    obtain ⟨after, last, rfl⟩ := (List.eq_nil_or_concat' after).resolve_left hafter
    have hcut : first ++ [' '] = before ++ word ++ after ++ [last] := by
      rw [hhas.text_eq, List.append_assoc _ after]
    obtain ⟨hcut, -⟩ := List.append_inj' hcut rfl
    refine ⟨before, after, { hhas with text_eq := ?_, ends := ?_ }⟩
    · rw [← htext, List.append_nil, hcut]
    · intro c hc
      refine hhas.ends c ?_
      rw [List.head?_append, hc, Option.some_or]

/-! ### The cursor -/

/-- Where a cursor stands: at a word with a number, of which something is typed before the cursor
and which takes up a span of the text.  It may stand inside the word or right behind it, and a new
word starts where there is none. -/
inductive AtCursor (text : List Char) (cursor : Nat) : Nat → List Char → Span → Prop
  | word {before word after : List Char} {number : Nat} :
      HasWord text number before word after → byteLength before < cursor →
      cursor ≤ byteLength (before ++ word) →
      AtCursor text cursor number (visible word (cursor - byteLength before))
        ⟨byteLength before, byteLength (before ++ word)⟩
  | between {before after : List Char} :
      text = before ++ after → byteLength before = cursor → StartsWord before →
      AtCursor text cursor (finishedWords before).length [] ⟨cursor, cursor⟩
  | beyond : byteLength text < cursor →
      AtCursor text cursor (finishedWords (text ++ [' '])).length [] ⟨cursor, cursor⟩

/-- Every cursor stands somewhere. -/
theorem exists_atCursor (text : List Char) (cursor : Nat) :
    ∃ number typed span, AtCursor text cursor number typed span := by
  by_cases hbeyond : byteLength text < cursor
  · exact ⟨_, _, _, .beyond hbeyond⟩
  obtain ⟨first, rest, hsplit, htext⟩ := exists_splitAtByte_eq cursor text
  have hfirst : byteLength first ≤ cursor := by
    have hle := byteLength_splitAtByte_le cursor text
    rwa [hsplit] at hle
  obtain ⟨before, begun, rfl, hbefore, hbegun⟩ := exists_startsWord_append first
  by_cases hbetween : begun = [] ∧ byteLength before = cursor
  · obtain ⟨rfl, hcursor⟩ := hbetween
    rw [List.append_nil] at htext
    exact ⟨_, _, _, .between htext.symm hcursor hbefore⟩
  · obtain ⟨ending, after, rfl, hending, hafter⟩ := exists_append_endsWord rest
    rw [byteLength_append] at hfirst
    have hcut := le_of_splitAtByte_eq hsplit hafter (Nat.not_lt.1 hbeyond)
    rw [byteLength_append] at hcut
    have hstart : byteLength before < cursor := by
      rcases eq_or_ne begun [] with rfl | hne
      · exact lt_of_le_of_ne hfirst fun heq => hbetween ⟨rfl, heq⟩
      · have hpos := byteLength_pos hne
        omega
    have hstop : cursor ≤ byteLength (before ++ (begun ++ ending)) := by
      rw [byteLength_append, byteLength_append]
      omega
    have hne : begun ++ ending ≠ [] := by
      intro hnil
      rw [hnil, List.append_nil] at hstop
      omega
    have hhas : HasWord text _ before (begun ++ ending) after :=
      { text_eq := by rw [← htext, List.append_assoc, List.append_assoc, List.append_assoc]
        ne_nil := hne
        unbroken := unbroken_append.2 ⟨hbegun, hending⟩
        starts := hbefore
        ends := hafter
        number_eq := rfl }
    exact ⟨_, _, _, .word hhas hstart hstop⟩

/-- Where the cursor stands fixes what a reading takes from the text. -/
theorem AtCursor.reading_eq (h : AtCursor text cursor number typed span) :
    (finishedWords (visible text cursor)).length = number ∧
      lastField (visible text cursor) = typed ∧ activeSpan text cursor = span := by
  cases h with
  | @word before word after number hhas hcursor hle =>
      have hle' : cursor - byteLength before ≤ byteLength word := by
        rw [byteLength_append] at hle
        omega
      have hshown := unbroken_visible hhas.unbroken hle'
      have hvisible : visible text cursor =
          before ++ visible word (cursor - byteLength before) := by
        rw [hhas.text_eq, visible_within hcursor hle]
      have hlast : lastField (visible text cursor) =
          visible word (cursor - byteLength before) := by
        rw [hvisible, lastField_append hhas.starts hshown]
      refine ⟨by rw [hvisible, finishedWords_append hhas.starts hshown, hhas.number_eq], hlast, ?_⟩
      have hne : visible word (cursor - byteLength before) ≠ [] :=
        visible_ne_nil (Nat.sub_pos_of_lt hcursor) hle'
      rw [activeSpan, hlast, List.isEmpty_eq_false_iff.2 hne, if_neg Bool.false_ne_true,
        hhas.text_eq, splitAtByte_within hcursor hle]
      obtain ⟨begun, rest, hsplit, hword⟩ :=
        exists_splitAtByte_eq (cursor - byteLength before) word
      obtain ⟨hbegun, hrest⟩ : Unbroken begun ∧ Unbroken rest := by
        rw [← unbroken_append, hword]
        exact hhas.unbroken
      simp only [hsplit, lastField_append hhas.starts hbegun, takeWhile_append hrest hhas.ends,
        hword, byteLength_append, Nat.add_sub_cancel]
  | @between before after htext hcursor hbefore =>
      have hvisible : visible text cursor = before := by
        rw [htext, visible_of_byteLength_eq hcursor]
      have hlast : lastField (visible text cursor) = [] := by
        rw [hvisible, ← List.append_nil before, lastField_append hbefore unbroken_nil]
      exact ⟨by rw [hvisible], hlast, by rw [activeSpan, hlast]; rfl⟩
  | beyond hbeyond =>
      have hvisible := visible_of_lt hbeyond
      have hlast : lastField (visible text cursor) = [] := by
        rw [hvisible, ← List.append_nil (text ++ [' ']),
          lastField_append (.separator rfl) unbroken_nil]
      exact ⟨by rw [hvisible], hlast, by rw [activeSpan, hlast]; rfl⟩

/-- The number of finished words, what is typed at the cursor and the span of a reading are those of
the place where the cursor stands. -/
theorem atCursor_iff : AtCursor text cursor number typed span ↔
    (finishedWords (visible text cursor)).length = number ∧
      lastField (visible text cursor) = typed ∧ activeSpan text cursor = span := by
  constructor
  · exact AtCursor.reading_eq
  · rintro ⟨rfl, rfl, rfl⟩
    obtain ⟨number, typed, span, h⟩ := exists_atCursor text cursor
    obtain ⟨rfl, rfl, rfl⟩ := h.reading_eq
    exact h

theorem AtCursor.start_le_stop (h : AtCursor text cursor number typed span) :
    span.start ≤ span.stop := by
  cases h with
  | word => exact byteLength_append .. ▸ Nat.le_add_right ..
  | between | beyond => exact Nat.le_refl _

/-- No two words take up the same span. -/
theorem AtCursor.number_eq {cursor' number' : Nat} {typed' : List Char} {span' : Span}
    (h : AtCursor text cursor number typed span) (h' : AtCursor text cursor' number' typed' span')
    (hspan : span = span') : number = number' := by
  have hnumber := h.reading_eq.1
  have hnumber' := h'.reading_eq.1
  -- a word takes up at least one byte
  have hword : ∀ {number offset : Nat} {before word after : List Char},
      HasWord text number before word after →
        (⟨byteLength before, byteLength (before ++ word)⟩ : Span) ≠ ⟨offset, offset⟩ := by
    intro number offset before word after hhas heq
    have hpos := byteLength_pos hhas.ne_nil
    obtain ⟨rfl, hstop⟩ := Span.mk.inj heq
    rw [byteLength_append] at hstop
    omega
  cases h with
  | word hhas =>
      cases h' with
      | word hhas' =>
          have htext := hhas.text_eq.symm.trans hhas'.text_eq
          rw [List.append_assoc, List.append_assoc] at htext
          have hbefore := byteLength_inj_of_append htext (Span.mk.inj hspan).1
          rw [← hhas.number_eq, ← hhas'.number_eq, hbefore]
      | between | beyond => exact absurd hspan (hword hhas)
  | between | beyond =>
      cases h' with
      | word hhas' => exact absurd hspan.symm (hword hhas')
      | between | beyond =>
          obtain ⟨rfl, -⟩ := Span.mk.inj hspan
          exact hnumber.symm.trans hnumber'

end Reading

end Typeahead
