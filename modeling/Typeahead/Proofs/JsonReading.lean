/-
Reading JSON values of a fixed type.

Integers, truth values, strings and lists of strings are read in every spelling, with blanks around.
As with skipping, a reader stops behind the last character of a value, and what is left is known up
to blanks.

Main definitions:

* `Typeahead.Json.Reads` — what a reader gives and what it leaves;
* `Typeahead.Json.SpellsInt`, `Typeahead.Json.SpellsBool`, `Typeahead.Json.SpellsOptional`,
  `Typeahead.Json.SpellsStrings` — the spellings of a value.

Main results:

* `Typeahead.Json.readInt_spells` — an integer between the bounds is read as it is spelled;
* `Typeahead.Json.readStrings_spells` — a list of strings is read in every spelling;
* `Typeahead.Json.spellsInt_writeInt`, `Typeahead.Json.spellsStrings_writeStrings` — the writers
  spell.
-/

import Mathlib.Data.List.Forall2
import Typeahead.Json.Scanner
import Typeahead.Proofs.JsonValues

set_option relaxedAutoImplicit false
set_option autoImplicit false

namespace Typeahead

namespace Json

variable {text spelling rest tail input : List Char} {texts : List String}
  {items : List (List Char)} {fuel : Nat}

/-- The reader gives a value and leaves `rest`, up to blanks in front of it. -/
def Reads {α : Type} (scanned : Scanned α) (value : α) (rest : List Char) : Prop :=
  ∃ left, scanned = .ok (value, left) ∧ skipBlanks left = skipBlanks rest

theorem Reads.map {α β : Type} {scanned : Scanned α} {value : α} (h : Reads scanned value rest)
    (f : α → β) : Reads (scanned.map fun scanned => (f scanned.1, scanned.2)) (f value) rest := by
  obtain ⟨left, rfl, hblanks⟩ := h
  exact ⟨left, rfl, hblanks⟩

/-! ### Integers -/

theorem isWhole_toDigits (n : Nat) : IsWhole (Nat.toDigits 10 n) := by
  refine ⟨⟨Nat.toDigits_ne_nil, ?_⟩, ?_⟩
  · exact fun c hc => Nat.isDigit_of_mem_toDigits (by decide) (by decide) hc
  induction n using Nat.strong_induction_on with
  | _ n ih =>
      intro more hmore
      rw [Nat.toDigits_eq_if (by decide)] at hmore
      split at hmore
      · exact (List.cons_eq_cons.1 hmore).2.symm
      · next hge =>
          obtain ⟨hnil, -⟩ | ⟨more', hmore', -⟩ := List.append_eq_cons_iff.1 hmore
          · exact absurd hnil Nat.toDigits_ne_nil
          · -- the quotient has a single digit, a zero, although it is not zero
            have hzero : Nat.toDigits 10 (n / 10) = ['0'] := by
              rw [hmore', ih (n / 10) (by omega) more' hmore']
            have hvalue : Nat.ofDigitChars 10 (Nat.toDigits 10 (n / 10)) 0 = n / 10 :=
              Nat.ofDigitChars_ten_toDigits
            rw [hzero] at hvalue
            have hquotient : 0 = n / 10 := hvalue
            omega

theorem digitsValue_toDigits (n : Nat) : digitsValue (Nat.toDigits 10 n) = n := by
  have h : Nat.ofDigitChars 10 (Nat.toDigits 10 n) 0 = n := Nat.ofDigitChars_ten_toDigits
  rw [Nat.ofDigitChars_eq_foldl] at h
  simpa only [digitsValue, Nat.mul_comm] using h

/-- An integer is spelled in decimal notation. -/
def SpellsInt (value : Int) : List Char → Prop := Padded (toString value).toList

/-- A truth value is spelled by its name. -/
def SpellsBool (value : Bool) : List Char → Prop := Padded (toString value).toList

theorem writeInt_eq (value : Int) : writeInt value = (toString value).toList := by
  cases value <;> simp [writeInt, toString, Int.repr, Nat.repr]

theorem spellsInt_writeInt (value : Int) : SpellsInt value (writeInt value) := by
  rw [SpellsInt, ← writeInt_eq]
  exact padded_self _

theorem spellsBool_writeBool (value : Bool) : SpellsBool value (writeBool value) := by
  cases value <;> exact padded_self _

/-- The number that is written for an integer. -/
def numeralOf : Int → Numeral
  | .ofNat n => ⟨false, Nat.toDigits 10 n, none, none⟩
  | .negSucc n => ⟨true, Nat.toDigits 10 (n + 1), none, none⟩

theorem spellsNumeral_writeInt (value : Int) :
    SpellsNumeral (numeralOf value) (writeInt value) := by
  have hdigits (negative : Bool) (n : Nat) :
      SpellsUnsigned negative ⟨negative, Nat.toDigits 10 n, none, none⟩ (Nat.toDigits 10 n) := by
    have h : SpellsUnsigned negative _ (Nat.toDigits 10 n ++ ([] ++ [])) :=
      .parts (isWhole_toDigits n) .absent .absent
    rwa [List.append_nil, List.append_nil] at h
  cases value with
  | ofNat n => exact .positive (hdigits false n)
  | negSucc n => exact .negative (hdigits true (n + 1))

theorem integer?_numeralOf (value : Int) : (numeralOf value).integer? = some value := by
  cases value with
  | ofNat n => simp only [numeralOf, Numeral.integer?, digitsValue_toDigits, Int.ofNat_eq_natCast]
  | negSucc n =>
      simp only [numeralOf, Numeral.integer?, digitsValue_toDigits, if_neg (Nat.succ_ne_zero n)]
      rfl

theorem mantissa_numeralOf (value : Int) : (numeralOf value).mantissa = value.natAbs := by
  cases value with
  | ofNat n => exact (congrArg _ (List.append_nil _)).trans (digitsValue_toDigits n)
  | negSucc n => exact (congrArg _ (List.append_nil _)).trans (digitsValue_toDigits (n + 1))

theorem power_numeralOf (value : Int) : (numeralOf value).power = 0 := by
  cases value <;> rfl

/-- A number of few digits is not too large. -/
theorem isTooLarge_numeralOf {value : Int} (h : value.natAbs < Nat.pow 10 20) :
    (numeralOf value).isTooLarge = false := by
  have hlength : (Nat.toDigits 10 value.natAbs).length ≤ 20 :=
    (Nat.length_toDigits_le_iff (by decide) (by decide)).2 h
  rw [Numeral.isTooLarge, mantissa_numeralOf, power_numeralOf, if_pos]
  refine .inr ?_
  rw [Numeral.greatestLength]
  omega

theorem readNumber_writeInt {value : Int} (h : value.natAbs < Nat.pow 10 20) (hrest : MayFollow rest) :
    readNumber (writeInt value ++ rest) = .ok (some value, rest) := by
  rw [readNumber, scanNumeral_spells (spellsNumeral_writeInt value) hrest]
  simp only [isTooLarge_numeralOf h, Bool.false_eq_true, if_false, integer?_numeralOf]

/-- An integer between the bounds is read as it is spelled. -/
theorem readInt_spells {least greatest value : Int} (hleast : least ≤ value)
    (hgreatest : value ≤ greatest) (hsmall : value.natAbs < Nat.pow 10 20)
    (h : SpellsInt value spelling) (hrest : MayFollow rest) :
    Reads (readInt least greatest (spelling ++ rest)) value rest := by
  rw [SpellsInt, ← writeInt_eq] at h
  obtain ⟨hleft, hright⟩ := h
  refine ⟨_, ?_, skipBlanks_append hright rest⟩
  have hread := readNumber_writeInt hsmall (hrest.append_left hright)
  obtain ⟨c, more, hcons, hc⟩ := (spellsNumeral_writeInt value).exists_cons
  rw [List.append_assoc, List.append_assoc, readInt, skipBlanks_append hleft, hcons,
    List.cons_append, skipBlanks_cons (isBlank_of_number hc)]
  rw [hcons, List.cons_append] at hread
  have hnumber : (c == '-' || c.isDigit) = true := by
    rwa [Bool.or_eq_true, beq_iff_eq]
  simp only [hnumber, if_true, hread, hleast, hgreatest, and_self]

/-! ### Truth values and strings -/

theorem readBool_spells {value : Bool} (h : SpellsBool value spelling) (rest : List Char) :
    Reads (readBool (spelling ++ rest)) value rest := by
  obtain ⟨hleft, hright⟩ := h
  refine ⟨_, ?_, skipBlanks_append hright rest⟩
  rw [List.append_assoc, List.append_assoc, readBool, skipBlanks_append hleft]
  cases value <;> rfl

/-- A string starts with a quote and is read up to the closing one. -/
theorem Spells.exists_body {text : String} (h : Spells text spelling) :
    ∃ body right, SpellsChars text.toList body ∧ AreBlank right ∧
      ∀ rest, skipBlanks (spelling ++ rest) = '"' :: (body ++ '"' :: (right ++ rest)) := by
  obtain ⟨body, hbody, hleft, hright⟩ := h
  refine ⟨body, _, hbody, hright, fun rest => ?_⟩
  rw [List.append_assoc, List.append_assoc, skipBlanks_append hleft, List.cons_append,
    List.append_assoc, skipBlanks_cons rfl]
  rfl

theorem readString_skipBlanks (input : List Char) :
    readString (skipBlanks input) = readString input := by
  rw [readString, skipBlanks_skipBlanks, readString]

theorem readString_spells {text : String} (h : Spells text spelling) (rest : List Char) :
    Reads (readString (spelling ++ rest)) text rest := by
  obtain ⟨body, right, hbody, hright, hopen⟩ := h.exists_body
  refine ⟨right ++ rest, ?_, skipBlanks_append hright rest⟩
  rw [readString, hopen]
  simp only [scanString_spellsChars hbody, String.ofList_toList]

/-- The spellings of an optional string. -/
inductive SpellsOptional : Option String → List Char → Prop
  | none {spelling : List Char} : Padded "null".toList spelling → SpellsOptional none spelling
  | some {text : String} {spelling : List Char} :
      Spells text spelling → SpellsOptional (some text) spelling

theorem SpellsOptional.padded {text? : Option String} (h : SpellsOptional text? text)
    (hpadded : Padded text spelling) : SpellsOptional text? spelling := by
  cases h with
  | none hnull => exact .none (hnull.trans hpadded)
  | some hspells =>
      obtain ⟨body, hbody, htext⟩ := hspells
      exact .some ⟨body, hbody, htext.trans hpadded⟩

theorem readOptionalString_spells {text? : Option String} (h : SpellsOptional text? spelling)
    (rest : List Char) : Reads (readOptionalString (spelling ++ rest)) text? rest := by
  cases h with
  | none h =>
      obtain ⟨hleft, hright⟩ := h
      refine ⟨_, ?_, skipBlanks_append hright rest⟩
      rw [List.append_assoc, List.append_assoc, readOptionalString, skipBlanks_append hleft]
      rfl
  | @some text _ h =>
      have hread := (readString_spells h rest).map some
      obtain ⟨body, right, -, -, hopen⟩ := h.exists_body
      rw [← readString_skipBlanks, hopen] at hread
      rw [readOptionalString, hopen]
      exact hread

/-! ### Lists of strings -/

/-- The spellings of a list of strings. -/
def SpellsStrings (texts : List String) (spelling : List Char) : Prop :=
  ∃ items blanks, List.Forall₂ Spells texts items ∧ AreBlank blanks ∧
    Padded ('[' :: (separate items ++ (blanks ++ [']']))) spelling

theorem nextElement_close {first : Bool} (h : skipBlanks input = ']' :: rest) :
    nextElement first input = .ok (.close rest) := by
  simp only [nextElement, h]

theorem nextElement_further {text : String} {item : List Char} (h : Spells text item)
    (hinput : skipBlanks input = ',' :: (item ++ rest)) :
    nextElement false input = .ok (.item (skipBlanks (item ++ rest))) := by
  obtain ⟨body, right, -, -, hopen⟩ := h.exists_body
  simp only [nextElement, hinput, hopen]
  rfl

/-- Only the comma tells the first element from the others. -/
theorem nextElement_separate (h : List.Forall₂ Spells texts items)
    (htail : skipBlanks tail = ']' :: rest) :
    nextElement true (separate items ++ tail) = nextElement false (followed items tail) := by
  cases h with
  | nil =>
      rw [separate, List.nil_append, followed_nil, nextElement_close htail, nextElement_close htail]
  | @cons text item texts items hitem _ =>
      rw [followed_cons, nextElement_further hitem (skipBlanks_cons rfl _), separate_cons_append]
      obtain ⟨body, right, -, -, hopen⟩ := hitem.exists_body
      simp only [nextElement, hopen]
      rfl

theorem readStringsWithin_followed (h : List.Forall₂ Spells texts items)
    (htail : skipBlanks tail = ']' :: rest)
    (hinput : skipBlanks input = skipBlanks (followed items tail)) (hfuel : items.length < fuel) :
    readStringsWithin fuel false input = .ok (texts, rest) := by
  induction h generalizing input fuel with
  | nil =>
      obtain ⟨fuel, rfl⟩ := Nat.exists_add_one_eq.2 hfuel
      rw [readStringsWithin, nextElement_close (hinput.trans htail)]
  | @cons text item texts items hitem _ ih =>
      obtain ⟨fuel, rfl⟩ := Nat.exists_add_one_eq.2 (Nat.zero_lt_of_lt hfuel)
      rw [followed_cons, skipBlanks_cons rfl] at hinput
      obtain ⟨left, hread, hleft⟩ := readString_spells hitem (followed items tail)
      rw [readStringsWithin, nextElement_further hitem hinput]
      simp only [readString_skipBlanks, hread, ih hleft (Nat.lt_of_succ_lt_succ hfuel)]
      rfl

theorem readStringsWithin_congr {first first' : Bool} {input' : List Char}
    (h : nextElement first input = nextElement first' input') :
    readStringsWithin (fuel + 1) first input = readStringsWithin (fuel + 1) first' input' := by
  rw [readStringsWithin, readStringsWithin, h]

/-- A list of strings is read in every spelling. -/
theorem readStrings_spells (h : SpellsStrings texts spelling) (rest : List Char) :
    Reads (readStrings (spelling ++ rest)) texts rest := by
  obtain ⟨items, blanks, hitems, hblanks, @⟨left, right, hleft, hright⟩⟩ := h
  refine ⟨right ++ rest, ?_, skipBlanks_append hright rest⟩
  have hclose := skipBlanks_append_cons (c := ']') hblanks rfl (right ++ rest)
  rw [List.append_assoc, List.append_assoc, readStrings, skipBlanks_append hleft, List.cons_append,
    List.append_assoc, List.append_assoc, List.singleton_append, skipBlanks_cons rfl]
  simp only [readStringsWithin_congr (nextElement_separate hitems hclose)]
  refine readStringsWithin_followed hitems hclose rfl (Nat.lt_succ_of_le ?_)
  exact length_le_separate items (List.append_ne_nil_of_right_ne_nil _ (List.cons_ne_nil _ _))

theorem SpellsStrings.padded (h : SpellsStrings texts text) (hpadded : Padded text spelling) :
    SpellsStrings texts spelling := by
  obtain ⟨items, blanks, hitems, hblanks, htext⟩ := h
  exact ⟨items, blanks, hitems, hblanks, htext.trans hpadded⟩

theorem spellsStrings_writeStrings (texts : List String) :
    SpellsStrings texts (writeStrings texts) := by
  refine ⟨texts.map writeString, [], ?_, areBlank_nil, padded_self _⟩
  rw [List.forall₂_map_right_iff, List.forall₂_same]
  exact fun text _ => spells_writeString text

end Json

end Typeahead
