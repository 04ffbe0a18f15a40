/-
The reading of a text in one pass.

The pass keeps the following: the words that have ended are those of the bytes before the present
word, or before the cursor once the pass is behind it, and what is kept of the present word is the
part of it before the cursor.  When the word at the cursor ends, its bytes before the cursor and
the run of all its bytes are known, and nothing changes any more.  So the pass finds the words and
the stretch that belong to the cursor, and there is one choice of these only.

Main definitions:

* `Typeahead.Scan.Fits` — what the pass has found when it comes to an offset;
* `Typeahead.Scan.IsDone` — the pass has found the words up to the cursor.

Main results:

* `Typeahead.Scan.Fits.endWord`, `Typeahead.Scan.Fits.addByte` — each byte keeps this;
* `Typeahead.Scan.isDone_run` — the pass finds the words up to the cursor;
* `Typeahead.Reading.digest_eq_ofText` — the pass computes the reading of a text.
-/

import Typeahead.Proofs.Tokens
import Typeahead.Query.Scan

set_option relaxedAutoImplicit false
set_option autoImplicit false

namespace Typeahead

namespace Text

open Reading

variable {bytes : List UInt8} {i : Nat}

/-! ### Bytes of a word -/

theorem slice_ne_nil {start stop : Nat} (hlt : start < stop)
    (hin : ∀ j, start ≤ j → j < stop → InWord bytes j) : Span.slice ⟨start, stop⟩ bytes ≠ [] := by
  have hlast := (hin (stop - 1) (by omega) (by omega)).lt
  rw [← List.length_pos_iff, Span.slice, List.length_drop, List.length_take]
  show 0 < min stop bytes.length - start
  omega

/-- A separator adds no word. -/
theorem hasWords_take_succ {words : List (List Char)} (h : HasWords (bytes.take i) words)
    (hsep : ¬ InWord bytes i) : HasWords (bytes.take (i + 1)) words := by
  have hbyte : ∀ byte ∈ bytes[i]?.toList, isSeparatorByte byte = true := by
    intro byte hbyte
    by_contra hword
    exact hsep ⟨byte, Option.mem_toList.1 hbyte, Bool.eq_false_of_not_eq_true hword⟩
  have hparted : Parted (bytes.take i) bytes[i]?.toList := by
    rintro - ⟨byte, hfirst, hword⟩
    rw [hbyte byte (List.mem_of_getElem? hfirst)] at hword
    cases hword
  have hwords := h.append (hasWords_separators hbyte) hparted
  rwa [List.append_nil, ← List.take_add_one] at hwords

/-- No word goes on across an offset that stands apart. -/
theorem parted_take (h : StandsApart bytes i) (hle : i ≤ bytes.length) (after : List UInt8) :
    Parted (bytes.take i) after := by
  intro hin
  have hlt := hin.lt
  rw [List.length_take, min_eq_left hle] at hin hlt
  rw [← inWord_append_of_lt (by rwa [List.length_take, min_eq_left hle]) (bytes.drop i),
    List.take_append_drop] at hin
  exact absurd hin (standsApart_iff.1 h (by omega))

/-- The word that has begun is the last one of the bytes up to an offset inside it. -/
theorem hasWords_take_of_inWord {words : List (List Char)} {start stop : Nat} (hlt : start < stop)
    (hin : ∀ j, start ≤ j → j < stop → InWord bytes j) (hapart : StandsApart bytes start)
    (h : HasWords (bytes.take start) words) :
    HasWords (bytes.take stop) (words ++ [lossy (Span.slice ⟨start, stop⟩ bytes)]) := by
  have hunbroken : ∀ byte ∈ Span.slice ⟨start, stop⟩ bytes, isSeparatorByte byte = false := by
    intro byte hbyte
    obtain ⟨j, hj⟩ := List.mem_iff_getElem?.1 hbyte
    rw [Span.slice, List.getElem?_drop, List.getElem?_take] at hj
    split_ifs at hj with hstop
    obtain ⟨byte', hbyte', hword⟩ := hin (start + j) (Nat.le_add_right ..) hstop
    rw [hj] at hbyte'
    obtain rfl := Option.some.inj hbyte'
    exact hword
  have hstart := (hin start le_rfl hlt).lt
  have hword := hasWords_unbroken (slice_ne_nil hlt hin) hunbroken (readsAsText_lossy _)
  have happend : bytes.take start ++ Span.slice ⟨start, stop⟩ bytes = bytes.take stop := by
    have htake := List.take_append_drop start (bytes.take stop)
    rwa [List.take_take, min_eq_left hlt.le] at htake
  have hwords := h.append hword (parted_take hapart hstart.le _)
  rwa [happend] at hwords

end Text

namespace Scan

open Text Reading

/-! ### Each byte -/

/-- What the pass has found when it comes to offset `i`. -/
inductive Fits (bytes : List UInt8) (cursor i : Nat) : Scan → Prop
  /-- Between two words, or behind the cursor when no word is at it. -/
  | between {words : List (List Char)} {start : Nat} :
      StandsApart bytes (min i cursor) → HasWords (bytes.take (min i cursor)) words →
      Fits bytes cursor i ⟨words, [], start, none⟩
  /-- Inside a word that starts before the cursor. -/
  | inside {words : List (List Char)} {start : Nat} : start < min i cursor →
      (∀ j, start ≤ j → j < i → InWord bytes j) → StandsApart bytes start →
      HasWords (bytes.take start) words →
      Fits bytes cursor i ⟨words, Span.slice ⟨start, min i cursor⟩ bytes, start, none⟩
  /-- Behind the word at the cursor. -/
  | found {words : List (List Char)} {active start : Nat} {span : Span} : cursor ≤ i →
      active + 1 = words.length → Tokenizes bytes cursor words span →
      Fits bytes cursor i ⟨words, [], start, some (active, span)⟩

variable {bytes : List UInt8} {cursor i : Nat} {scan : Scan}

/-- Inside a word some of its bytes have been kept. -/
theorem isEmpty_slice {start : Nat} (hlt : start < min i cursor)
    (hin : ∀ j, start ≤ j → j < i → InWord bytes j) :
    (Span.slice ⟨start, min i cursor⟩ bytes).isEmpty = false := by
  rw [List.isEmpty_eq_false_iff]
  exact slice_ne_nil hlt fun j hj hj' => hin j hj (lt_of_lt_of_le hj' (min_le_left ..))

/-- The next word may start behind a separator. -/
theorem Fits.of_separator {words : List (List Char)} {start : Nat} (hlt : i < cursor)
    (hwords : HasWords (bytes.take i) words) (hsep : ¬ InWord bytes i) :
    Fits bytes cursor (i + 1) ⟨words, [], start, none⟩ := by
  have hnext : min (i + 1) cursor = i + 1 := min_eq_left hlt
  refine .between ?_ ?_ <;> rw [hnext]
  · exact standsApart_iff.2 fun _ => hsep
  · exact hasWords_take_succ hwords hsep

/-- A separator ends the present word.  When the cursor is at this word, its bytes are a run, and
those before the cursor are the last word before it. -/
theorem Fits.endWord (h : Fits bytes cursor i scan) (hsep : ¬ InWord bytes i) :
    Fits bytes cursor (i + 1) (scan.endWord cursor i) := by
  cases h with
  | between hapart hwords =>
      rcases Nat.lt_or_ge i cursor with hlt | hge
      · rw [min_eq_left hlt.le] at hwords
        exact of_separator hlt hwords hsep
      · have hnext : min (i + 1) cursor = min i cursor := by omega
        refine .between ?_ ?_ <;> rwa [hnext]
  | found hle hactive htokens => exact .found (hle.trans (Nat.le_succ i)) hactive htokens
  | @inside words start hlt hin hapart hwords =>
      have hlt' : start < i := lt_of_lt_of_le hlt (min_le_left ..)
      have hended := hasWords_take_of_inWord hlt
        (fun j hj hj' => hin j hj (lt_of_lt_of_le hj' (min_le_left ..))) hapart hwords
      simp only [Scan.endWord, isEmpty_slice hlt hin, Bool.false_eq_true, if_false,
        Option.isNone_none, Bool.true_and, decide_eq_true_eq]
      split_ifs with hle
      · rw [min_eq_right hle] at hlt hended ⊢
        have hleft : ∀ j, j + 1 = start → ¬ InWord bytes j := by
          rintro j rfl
          exact standsApart_iff.1 hapart j.succ_pos
        have hrun : IsRun bytes ⟨start, i⟩ := ⟨hlt', hin, hleft, hsep⟩
        have hnot : ¬ StandsApart bytes cursor := fun hcursor =>
          standsApart_iff.1 hcursor (by omega) (hin _ (by omega) (by omega))
        refine .found (hle.trans (Nat.le_succ i)) ?_ (.inside hnot hended hrun ?_ ?_)
        · rw [List.length_append, List.length_singleton]
        · exact Nat.le_sub_one_of_lt hlt
        · show cursor - 1 < i
          omega
      · rw [min_eq_left (by omega)] at hended ⊢
        exact of_separator (by omega) hended hsep

/-- A byte of a word starts a word or goes on with the present one.  It is kept if it stands before
the cursor. -/
theorem Fits.addByte {byte : UInt8} (h : Fits bytes cursor i scan) (hbyte : bytes[i]? = some byte)
    (hword : isSeparatorByte byte = false) (hpast : scan.isPast cursor i = false) :
    Fits bytes cursor (i + 1) (scan.addByte cursor i byte) := by
  have hin : InWord bytes i := ⟨byte, hbyte, hword⟩
  cases h with
  | found hle hactive htokens =>
      rw [Scan.addByte, if_neg (Nat.not_lt.2 hle)]
      exact .found (hle.trans (Nat.le_succ i)) hactive htokens
  | @between words start hapart hwords =>
      have hle : i ≤ cursor := by
        simpa [Scan.isPast] using hpast
      rw [min_eq_left hle] at hapart hwords
      simp only [Scan.addByte, List.isEmpty_nil, if_true, List.nil_append]
      split_ifs with hlt
      · have hnext : min (i + 1) cursor = i + 1 := min_eq_left hlt
        have hfirst : [byte] = Span.slice ⟨i, min (i + 1) cursor⟩ bytes := by
          rw [hnext, Span.slice_succ le_rfl hbyte, Span.slice_self, List.nil_append]
        rw [hfirst]
        refine .inside (by omega) (fun j hj hj' => ?_) hapart hwords
        obtain rfl : j = i := by omega
        exact hin
      · -- a word starts right at the cursor, and none of its bytes is kept
        have hnext : min (i + 1) cursor = i := by omega
        refine .between ?_ ?_ <;> rwa [hnext]
  | @inside words start hlt hinside hapart hwords =>
      have hinside' : ∀ j, start ≤ j → j < i + 1 → InWord bytes j := by
        intro j hj hj'
        rcases Nat.lt_succ_iff_lt_or_eq.1 hj' with hbefore | rfl
        · exact hinside j hj hbefore
        · exact hin
      simp only [Scan.addByte, isEmpty_slice hlt hinside, Bool.false_eq_true, if_false]
      split_ifs with hbefore
      · have hnext : min (i + 1) cursor = i + 1 := min_eq_left hbefore
        rw [min_eq_left hbefore.le] at hlt ⊢
        have hkept : Fits bytes cursor (i + 1)
            ⟨words, Span.slice ⟨start, min (i + 1) cursor⟩ bytes, start, none⟩ :=
          .inside (by omega) hinside' hapart hwords
        rwa [hnext, Span.slice_succ hlt.le hbyte] at hkept
      · have hnext : min (i + 1) cursor = min i cursor := by omega
        rw [← hnext] at hlt ⊢
        exact .inside hlt hinside' hapart hwords

/-! ### The whole pass -/

/-- The added blank belongs to no word. -/
theorem getElem?_of_append_blank {byte : UInt8} (h : (bytes ++ [0x20])[i]? = some byte)
    (hword : isSeparatorByte byte = false) : bytes[i]? = some byte := by
  rcases Nat.lt_or_ge i bytes.length with hlt | hge
  · rwa [List.getElem?_append_left hlt] at h
  · rw [List.getElem?_append_right hge] at h
    obtain rfl := List.mem_singleton.1 (List.mem_of_getElem? h)
    cases hword

theorem not_inWord_of_append_blank {byte : UInt8} (h : (bytes ++ [0x20])[i]? = some byte)
    (hsep : isSeparatorByte byte = true) : ¬ InWord bytes i := by
  rintro ⟨byte', hbyte', hword⟩
  rw [List.getElem?_append_left (List.getElem?_eq_some_iff.1 hbyte').1, hbyte'] at h
  obtain rfl := Option.some.inj h
  rw [hsep] at hword
  cases hword

/-- The pass has found the words up to the cursor, of which the last is the one at it. -/
def IsDone (bytes : List UInt8) (cursor : Nat) (scan : Scan) : Prop :=
  ∃ words active span, scan.located cursor = (words, active, span) ∧
    active + 1 = words.length ∧ Tokenizes bytes cursor words span

/-- The next word starts behind the cursor, so that the cursor is at none. -/
theorem Fits.startWord (h : Fits bytes cursor i scan) (hpast : scan.isPast cursor i = true) :
    IsDone bytes cursor (scan.startWord cursor) := by
  cases h with
  | @between words start hapart hwords =>
      have hlt : cursor < i := by
        simpa [Scan.isPast] using hpast
      rw [min_eq_right hlt.le] at hapart hwords
      refine ⟨words ++ [[]], words.length, ⟨cursor, cursor⟩, rfl, ?_, .apart hapart hwords⟩
      rw [List.length_append, List.length_singleton]
  | inside hlt hin =>
      rw [Scan.isPast, isEmpty_slice hlt hin] at hpast
      cases hpast
  | found =>
      simp [Scan.isPast] at hpast

/-- Behind the added blank the pass is done. -/
theorem Fits.isDone (h : Fits bytes cursor (bytes.length + 1) scan) :
    IsDone bytes cursor scan := by
  cases h with
  | @between words start hapart hwords =>
      refine ⟨words ++ [[]], words.length, ⟨cursor, cursor⟩, rfl, ?_, ?_⟩
      · rw [List.length_append, List.length_singleton]
      · rcases Nat.lt_or_ge (bytes.length + 1) cursor with hlt | hle
        · -- the cursor is beyond the end, where no byte is left out
          rw [min_eq_left hlt.le, List.take_of_length_le (Nat.le_succ _)] at hwords
          refine .apart (.inr (.inr (by omega))) ?_
          rwa [List.take_of_length_le (by omega)]
        · rw [min_eq_right hle] at hapart hwords
          exact .apart hapart hwords
  | inside hlt hin =>
      exact absurd (hin bytes.length (by omega) (Nat.lt_succ_self _)).lt (lt_irrefl _)
  | @found words active start span hle hactive htokens =>
      exact ⟨words, active, span, rfl, hactive, htokens⟩

/-- From any offset on, the pass finds the words up to the cursor. -/
theorem isDone_run {rest : List UInt8} (h : Fits bytes cursor i scan)
    (hrest : (bytes ++ [0x20]).drop i = rest) (hle : i ≤ bytes.length + 1) :
    IsDone bytes cursor (run cursor i rest scan) := by
  induction rest generalizing i scan with
  | nil =>
      obtain rfl : i = bytes.length + 1 := by
        have hlength := List.drop_eq_nil_iff.1 hrest
        rw [List.length_append, List.length_singleton] at hlength
        omega
      exact h.isDone
  | cons byte rest ih =>
      have hbyte : (bytes ++ [0x20])[i]? = some byte := by
        rw [← List.head?_drop, hrest, List.head?_cons]
      have hrest' : (bytes ++ [0x20]).drop (i + 1) = rest := by
        rw [← List.tail_drop, hrest, List.tail_cons]
      have hle' : i + 1 ≤ bytes.length + 1 := by
        have hlt := (List.getElem?_eq_some_iff.1 hbyte).1
        rwa [List.length_append, List.length_singleton] at hlt
      rw [run]
      split_ifs with hsep hpast
      · exact ih (h.endWord (not_inWord_of_append_blank hbyte hsep)) hrest' hle'
      · exact h.startWord hpast
      · have hword : isSeparatorByte byte = false := Bool.eq_false_of_not_eq_true hsep
        exact ih (h.addByte (getElem?_of_append_blank hbyte hword) hword
          (Bool.eq_false_of_not_eq_true hpast)) hrest' hle'

/-- From the start, the pass over a text finds the words up to the cursor. -/
theorem isDone_run_zero (bytes : List UInt8) (cursor : Nat) :
    IsDone bytes cursor (run cursor 0 (bytes ++ [0x20]) {}) := by
  have hapart : StandsApart bytes (min 0 cursor) := .inl (by rw [Nat.zero_min, List.take_zero])
  have hwords : HasWords (bytes.take (min 0 cursor)) [] := by
    rw [Nat.zero_min, List.take_zero]
    exact hasWords_separators nofun
  exact isDone_run (.between hapart hwords) rfl (Nat.zero_le _)

end Scan

/-! ### The reading -/

namespace Reading

/-- Changing the last word leaves the words before it. -/
theorem set_length_sub_one {words : List String} (h : words ≠ []) (word : String) :
    words.set (words.length - 1) word = words.dropLast ++ [word] := by
  obtain ⟨front, last, rfl⟩ := List.eq_nil_or_concat' words |>.resolve_left h
  rw [List.length_append, List.length_singleton, Nat.add_sub_cancel,
    List.set_append_right _ _ le_rfl, Nat.sub_self, List.set_cons_zero, List.dropLast_concat]

/-- The pass computes the reading of a text. -/
theorem digest_eq_ofText (text : String) (cursor : Nat) (mode : Mode) (commands : List String) :
    digest text cursor mode commands = ofText text cursor mode commands := by
  obtain ⟨words, active, span, hlocated, hactive, htokens⟩ :=
    Scan.isDone_run_zero (utf8Bytes text) cursor
  rw [Text.utf8Bytes_eq_encoded] at htokens
  obtain ⟨rfl, rfl⟩ := htokens.unique (tokenizes_typedWords text.toList cursor)
  have hall : (typedWords text.toList cursor).take (active + 1) = typedWords text.toList cursor :=
    List.take_of_length_le hactive.ge
  have hplace : active = ((typedWords text.toList cursor).map String.ofList).length - 1 := by
    rw [List.length_map, ← hactive, Nat.add_sub_cancel]
  simp only [digest, hlocated, hall, ofText, ← hplace]
  cases mode with
  | hint => rfl
  | suggest =>
      cases hinclude : Query.isInclude
          ⟨(typedWords text.toList cursor).map String.ofList, active, .suggest⟩ commands with
      | true => rfl
      | false =>
          have hne : (typedWords text.toList cursor).map String.ofList ≠ [] := by
            rw [← List.length_pos_iff, List.length_map, ← hactive]
            exact active.succ_pos
          rw [hplace, ← set_length_sub_one hne]
          rfl

end Reading

end Typeahead
