/-
Strings in JSON texts.

A character may stand in a string as it is, as a letter behind a backslash, or as a unit of 16 bits
in hexadecimal digits behind a backslash; the characters from 2 ^ 16 on take a pair of units.  The
scanner reads every spelling as the text it stands for.  A string that is skipped need not stand for
any text: there, half a pair is a unit like any other.  What the writer writes is a spelling.

Main definitions:

* `Typeahead.Json.SpellsChar`, `Typeahead.Json.SpellsChars` — the spellings of a text inside quotes;
* `Typeahead.Json.IsBody` — what may stand inside quotes, whether it spells a text or not;
* `Typeahead.Json.Padded` — a token with blanks around it;
* `Typeahead.Json.Spells` — the spellings of a text as a string.

Main results:

* `Typeahead.Json.scanString_spellsChars` — every spelling is read as what it spells;
* `Typeahead.Json.skipString_isBody` — a string is skipped up to its closing quote;
* `Typeahead.Json.spells_writeString` — the writer spells.
-/

import Mathlib.Data.List.DropRight
import Typeahead.Json.Skip
import Typeahead.Json.Write

set_option relaxedAutoImplicit false
set_option autoImplicit false

namespace Typeahead

namespace Json

variable {c : Char} {chars text : List Char} {unit : Nat}

/-! ### Blanks -/

/-- All characters are blanks. -/
def AreBlank (text : List Char) : Prop := ∀ c ∈ text, isBlank c

instance : DecidablePred AreBlank := fun text => List.decidableBAll (fun c => isBlank c) text

/-- A token with blanks around it. -/
inductive Padded (token : List Char) : List Char → Prop
  | pad {left right : List Char} : AreBlank left → AreBlank right →
      Padded token (left ++ token ++ right)

theorem areBlank_nil : AreBlank [] := List.forall_mem_nil _

theorem padded_self (token : List Char) : Padded token token := by
  have h : Padded token ([] ++ token ++ []) := .pad areBlank_nil areBlank_nil
  rwa [List.nil_append, List.append_nil] at h

theorem areBlank_append {left right : List Char} (hleft : AreBlank left) (hright : AreBlank right) :
    AreBlank (left ++ right) := List.forall_mem_append.2 ⟨hleft, hright⟩

/-- A token with blanks around it may have further blanks around it. -/
theorem Padded.trans {token padded text : List Char} (h : Padded token padded)
    (h' : Padded padded text) : Padded token text := by
  obtain ⟨hleft, hright⟩ := h
  obtain @⟨left', right', hleft', hright'⟩ := h'
  have hboth : Padded token _ := .pad (areBlank_append hleft' hleft)
    (areBlank_append hright hright')
  simpa only [List.append_assoc] using hboth

theorem skipBlanks_append {blanks : List Char} (h : AreBlank blanks) (rest : List Char) :
    skipBlanks (blanks ++ rest) = skipBlanks rest := List.dropWhile_append_of_pos h

theorem skipBlanks_cons (h : isBlank c = false) (rest : List Char) :
    skipBlanks (c :: rest) = c :: rest := by
  rw [skipBlanks, List.dropWhile_cons_of_neg (by rw [h]; exact Bool.false_ne_true)]

theorem skipBlanks_append_cons {blanks : List Char} (h : AreBlank blanks) (hc : isBlank c = false)
    (rest : List Char) : skipBlanks (blanks ++ c :: rest) = c :: rest := by
  rw [skipBlanks_append h, skipBlanks_cons hc]

@[simp] theorem skipBlanks_skipBlanks (input : List Char) :
    skipBlanks (skipBlanks input) = skipBlanks input := List.dropWhile_idempotent _ _

/-! ### Units -/

/-- A hexadecimal digit of a value, small or capital. -/
def IsHexDigit (c : Char) (value : Nat) : Prop :=
  value < 16 ∧ (c = Nat.digitChar value ∨ c = (Nat.digitChar value).toUpper)

/-- An escape of a unit of 16 bits, by four hexadecimal digits. -/
inductive EscapesUnit : Nat → List Char → Prop
  | digits {a b c d : Char} {i j k l : Nat} :
      IsHexDigit a i → IsHexDigit b j → IsHexDigit c k → IsHexDigit d l →
      EscapesUnit (((i * 16 + j) * 16 + k) * 16 + l) ['\\', 'u', a, b, c, d]

theorem hexValue?_eq {value : Nat} (h : IsHexDigit c value) : hexValue? c = some value := by
  have hall : ∀ value < 16, hexValue? (Nat.digitChar value) = some value ∧
      hexValue? (Nat.digitChar value).toUpper = some value := by decide
  obtain ⟨hlt, rfl | rfl⟩ := h
  · exact (hall value hlt).1
  · exact (hall value hlt).2

theorem EscapesUnit.exists_eq (h : EscapesUnit unit text) :
    ∃ a b c d, text = ['\\', 'u', a, b, c, d] ∧ hexUnit? a b c d = some unit := by
  cases h with
  | digits ha hb hc hd =>
      refine ⟨_, _, _, _, rfl, ?_⟩
      rw [hexUnit?, hexValue?_eq ha, hexValue?_eq hb, hexValue?_eq hc, hexValue?_eq hd]

/-! ### Spellings -/

/-- The letters that stand for a character behind a backslash, each with its character. -/
def escapeLetters : List (Char × Char) :=
  [('"', '"'), ('\\', '\\'), ('/', '/'), ('b', '\x08'), ('f', '\x0c'), ('n', '\n'), ('r', '\r'),
    ('t', '\t')]

/-- The ways to write a character inside quotes. -/
inductive SpellsChar (c : Char) : List Char → Prop
  | plain : c ≠ '"' → c ≠ '\\' → 0x20 ≤ c.toNat → SpellsChar c [c]
  | letter {letter : Char} : (letter, c) ∈ escapeLetters → SpellsChar c ['\\', letter]
  | unit {text : List Char} : EscapesUnit c.toNat text → SpellsChar c text
  | pair {high low : List Char} : 0x10000 ≤ c.toNat →
      EscapesUnit (0xD800 + (c.toNat - 0x10000) / 0x400) high →
      EscapesUnit (0xDC00 + (c.toNat - 0x10000) % 0x400) low → SpellsChar c (high ++ low)

/-- The ways to write characters inside quotes. -/
inductive SpellsChars : List Char → List Char → Prop
  | nil : SpellsChars [] []
  | cons {c : Char} {chars text rest : List Char} :
      SpellsChar c text → SpellsChars chars rest → SpellsChars (c :: chars) (text ++ rest)

/-- What may stand inside quotes. -/
inductive IsBody : List Char → Prop
  | nil : IsBody []
  | plain {c : Char} {rest : List Char} :
      c ≠ '"' → c ≠ '\\' → 0x20 ≤ c.toNat → IsBody rest → IsBody (c :: rest)
  | letter {letter c : Char} {rest : List Char} :
      (letter, c) ∈ escapeLetters → IsBody rest → IsBody ('\\' :: letter :: rest)
  | unit {unit : Nat} {text rest : List Char} :
      EscapesUnit unit text → IsBody rest → IsBody (text ++ rest)

/-- The ways to write a text as a string. -/
def Spells (text : String) (spelling : List Char) : Prop :=
  ∃ body, SpellsChars text.toList body ∧ Padded ('"' :: (body ++ ['"'])) spelling

theorem simpleEscape?_eq {letter : Char} (h : (letter, c) ∈ escapeLetters) :
    letter ≠ 'u' ∧ simpleEscape? letter = some c := by
  have hall : ∀ escape ∈ escapeLetters,
      escape.1 ≠ 'u' ∧ simpleEscape? escape.1 = some escape.2 := by decide
  exact hall _ h

theorem isControl_eq_false (h : 0x20 ≤ c.toNat) : isControl c = false :=
  decide_eq_false (Nat.not_lt.2 h)

/-! ### Scanning -/

theorem toNat_valid (c : Char) : c.toNat < 0xD800 ∨ 0xDFFF < c.toNat ∧ c.toNat < 0x110000 := c.valid

/-- The code of a character is no half of a pair. -/
theorem not_isSurrogate (c : Char) :
    isLowSurrogate c.toNat = false ∧ isHighSurrogate c.toNat = false := by
  have hvalid := toNat_valid c
  constructor
  · exact decide_eq_false (by omega)
  · exact decide_eq_false (by omega)

/-- The two halves that make a character. -/
theorem surrogates (h : 0x10000 ≤ c.toNat) :
    isHighSurrogate (0xD800 + (c.toNat - 0x10000) / 0x400) = true ∧
      isLowSurrogate (0xD800 + (c.toNat - 0x10000) / 0x400) = false ∧
      isLowSurrogate (0xDC00 + (c.toNat - 0x10000) % 0x400) = true ∧
      ofSurrogates (0xD800 + (c.toNat - 0x10000) / 0x400)
        (0xDC00 + (c.toNat - 0x10000) % 0x400) = c := by
  have hvalid := toNat_valid c
  refine ⟨decide_eq_true (by omega), decide_eq_false (by omega), decide_eq_true (by omega), ?_⟩
  rw [ofSurrogates]
  have hcode : 0x10000 + (0xD800 + (c.toNat - 0x10000) / 0x400 - 0xD800) * 0x400 +
      (0xDC00 + (c.toNat - 0x10000) % 0x400 - 0xDC00) = c.toNat := by omega
  rw [hcode, Char.ofNat_toNat]

theorem scanString_letter {letter : Char} (h : (letter, c) ∈ escapeLetters) (rest : List Char) :
    scanString ('\\' :: letter :: rest) =
      (scanString rest).map fun scanned => (c :: scanned.1, scanned.2) := by
  obtain ⟨hne, hescape⟩ := simpleEscape?_eq h
  rw [scanString, hescape]
  intro _ _ _ _ _ heq
  exact absurd heq hne

theorem scanString_unit {a b d e : Char} (h : hexUnit? a b d e = some c.toNat) (rest : List Char) :
    scanString ('\\' :: 'u' :: a :: b :: d :: e :: rest) =
      (scanString rest).map fun scanned => (c :: scanned.1, scanned.2) := by
  obtain ⟨hlow, hhigh⟩ := not_isSurrogate c
  rw [scanString, h]
  simp only [hlow, hhigh, Bool.false_eq_true, if_false, Char.ofNat_toNat]

theorem scanString_pair {a b d e a' b' d' e' : Char} (hlarge : 0x10000 ≤ c.toNat)
    (hhigh : hexUnit? a b d e = some (0xD800 + (c.toNat - 0x10000) / 0x400))
    (hlow : hexUnit? a' b' d' e' = some (0xDC00 + (c.toNat - 0x10000) % 0x400))
    (rest : List Char) :
    scanString ('\\' :: 'u' :: a :: b :: d :: e :: '\\' :: 'u' :: a' :: b' :: d' :: e' :: rest) =
      (scanString rest).map fun scanned => (c :: scanned.1, scanned.2) := by
  obtain ⟨hisHigh, hnotLow, hisLow, heq⟩ := surrogates hlarge
  rw [scanString, hhigh]
  simp only [hnotLow, Bool.false_eq_true, if_false, hisHigh, if_true, hlow, Option.filter_some,
    hisLow, heq]

theorem scanString_plain (hquote : c ≠ '"') (hslash : c ≠ '\\') (hprints : 0x20 ≤ c.toNat)
    (rest : List Char) :
    scanString (c :: rest) = (scanString rest).map fun scanned => (c :: scanned.1, scanned.2) := by
  rw [scanString, isControl_eq_false hprints, if_neg Bool.false_ne_true]
  · exact hquote
  · exact fun _ _ _ _ _ heq _ => hslash heq
  · exact fun _ _ heq _ => hslash heq

theorem scanString_spellsChar (h : SpellsChar c text) (rest : List Char) :
    scanString (text ++ rest) =
      (scanString rest).map fun scanned => (c :: scanned.1, scanned.2) := by
  cases h with
  | plain hquote hslash hprints => exact scanString_plain hquote hslash hprints rest
  | letter hletter => exact scanString_letter hletter rest
  | unit hunit =>
      obtain ⟨_, _, _, _, rfl, hvalue⟩ := hunit.exists_eq
      exact scanString_unit hvalue rest
  | pair hlarge hhigh hlow =>
      obtain ⟨_, _, _, _, rfl, hhighValue⟩ := hhigh.exists_eq
      obtain ⟨_, _, _, _, rfl, hlowValue⟩ := hlow.exists_eq
      exact scanString_pair hlarge hhighValue hlowValue rest

/-- Every spelling is read as what it spells. -/
theorem scanString_spellsChars (h : SpellsChars chars text) (rest : List Char) :
    scanString (text ++ '"' :: rest) = some (chars, rest) := by
  induction h with
  | nil => rfl
  | cons hchar _ ih => rw [List.append_assoc, scanString_spellsChar hchar, ih, Option.map_some]

/-- A string is skipped up to its closing quote. -/
theorem skipString_isBody (h : IsBody text) (rest : List Char) :
    skipString (text ++ '"' :: rest) = some rest := by
  induction h with
  | nil => rfl
  | plain hquote hslash hprints _ ih =>
      rw [List.cons_append, skipString, isControl_eq_false hprints, if_neg Bool.false_ne_true, ih]
      · exact hquote
      · exact fun _ _ _ _ _ heq _ => hslash heq
      · exact fun _ _ heq _ => hslash heq
  | letter hletter _ ih =>
      obtain ⟨hne, hescape⟩ := simpleEscape?_eq hletter
      rw [List.cons_append, List.cons_append, skipString, hescape, Option.isSome_some, if_pos rfl,
        ih]
      intro _ _ _ _ _ heq
      exact absurd heq hne
  | unit hunit _ ih =>
      obtain ⟨_, _, _, _, rfl, hvalue⟩ := hunit.exists_eq
      simp only [List.cons_append, List.nil_append]
      rw [skipString, hvalue, Option.isSome_some, if_pos rfl, ih]

/-! ### Writing -/

theorem isHexDigit_hexDigit {value : Nat} (h : value < 16) : IsHexDigit (hexDigit value) value :=
  ⟨h, .inl rfl⟩

theorem spellsChar_writeChar (c : Char) : SpellsChar c (writeChar c) := by
  unfold writeChar
  split
  -- the characters that the writer escapes by a letter come first
  iterate 7 exact .letter (by decide)
  next hquote hslash _ _ _ _ _ =>
    split
    · next hcontrol =>
        have hlt : c.toNat < 0x20 := of_decide_eq_true hcontrol
        refine .unit ?_
        have hzero : IsHexDigit '0' 0 := isHexDigit_hexDigit (by decide)
        have hunit := EscapesUnit.digits hzero hzero
          (isHexDigit_hexDigit (show c.toNat / 16 < 16 by omega))
          (isHexDigit_hexDigit (show c.toNat % 16 < 16 by omega))
        have hvalue : ((0 * 16 + 0) * 16 + c.toNat / 16) * 16 + c.toNat % 16 = c.toNat := by omega
        rwa [hvalue] at hunit
    · next hprints =>
        exact .plain hquote hslash (Nat.not_lt.1 fun hlt => hprints (decide_eq_true hlt))

theorem spellsChars_writeChar (chars : List Char) :
    SpellsChars chars (chars.flatMap writeChar) := by
  induction chars with
  | nil => exact .nil
  | cons c chars ih =>
      rw [List.flatMap_cons]
      exact .cons (spellsChar_writeChar c) ih

/-- What is written for a text is a spelling of it. -/
theorem spells_writeString (text : String) : Spells text (writeString text) :=
  ⟨_, spellsChars_writeChar text.toList, padded_self _⟩

end Json

end Typeahead
