/-
Values in JSON texts.

A number is read as it is written, if nothing comes after it that could belong to it.  A value of
any kind, nested to any depth, is skipped: every step that goes into the value takes a character, so
the fuel lasts.  What is left behind a value is known only up to blanks, for the skipper stops behind
the last character of the value and the blanks after it may belong to either side.

Main definitions:

* `Typeahead.Json.SpellsNumeral` — the spellings of a number;
* `Typeahead.Json.IsValue` — the texts that are a value, with blanks around it;
* `Typeahead.Json.MayFollow` — what may come after a value;
* `Typeahead.Json.followed` — the texts of a list after the first, each behind a comma.

Main results:

* `Typeahead.Json.scanNumeral_spells` — a number is read as it is written;
* `Typeahead.Json.IsValue.skips` — every value is skipped.
-/

import Typeahead.Proofs.JsonStrings

set_option relaxedAutoImplicit false
set_option autoImplicit false

namespace Typeahead

namespace Json

variable {text rest tail item name : List Char} {items : List (List Char)} {fuel : Nat}

/-! ### What comes after a value -/

/-- A value is followed by a blank, a comma or a closing bracket, if by anything. -/
def MayFollow (rest : List Char) : Prop :=
  ∀ c ∈ rest.head?, isBlank c ∨ c = ',' ∨ c = ']' ∨ c = '}'

/-- The next character is no digit. -/
def NoDigit (rest : List Char) : Prop := ∀ c ∈ rest.head?, c.isDigit = false

/-- The texts of a list after the first, each behind a comma, and then `tail`. -/
def followed (items : List (List Char)) (tail : List Char) : List Char :=
  items.foldr (fun item text => ',' :: (item ++ text)) tail

@[simp] theorem followed_nil : followed [] tail = tail := rfl

@[simp] theorem followed_cons :
    followed (item :: items) tail = ',' :: (item ++ followed items tail) := rfl

theorem separate_cons_append (item : List Char) (items : List (List Char)) (tail : List Char) :
    separate (item :: items) ++ tail = item ++ followed items tail := by
  induction items generalizing item with
  | nil => rfl
  | cons next items ih =>
      rw [separate, List.append_assoc, List.cons_append, ih, followed_cons]
      exact List.cons_ne_nil _ _

theorem length_followed_le (items : List (List Char)) (tail : List Char) :
    items.length + tail.length ≤ (followed items tail).length := by
  induction items with
  | nil => exact Nat.le_of_eq (Nat.zero_add _)
  | cons item items ih =>
      rw [followed_cons, List.length_cons, List.length_cons, List.length_append]
      omega

theorem length_le_separate (items : List (List Char)) (htail : tail ≠ []) :
    items.length ≤ (separate items ++ tail).length := by
  have hpos : 0 < tail.length := List.length_pos_iff.2 htail
  cases items with
  | nil => exact Nat.zero_le _
  | cons item items =>
      have hlength := length_followed_le items tail
      rw [separate_cons_append, List.length_append, List.length_cons]
      omega

theorem mayFollow_cons {c : Char} (h : isBlank c ∨ c = ',' ∨ c = ']' ∨ c = '}') :
    MayFollow (c :: rest) := by
  rintro _ ⟨⟩
  exact h

theorem mayFollow_followed (h : MayFollow tail) : MayFollow (followed items tail) := by
  cases items with
  | nil => exact h
  | cons item items => exact mayFollow_cons (.inr (.inl rfl))

theorem MayFollow.append_left {blanks : List Char} (h : MayFollow rest)
    (hblanks : AreBlank blanks) : MayFollow (blanks ++ rest) := by
  cases blanks with
  | nil => exact h
  | cons c blanks => exact mayFollow_cons (.inl (hblanks c List.mem_cons_self))

theorem isBlank_iff {c : Char} : isBlank c ↔ c = ' ' ∨ c = '\n' ∨ c = '\t' ∨ c = '\r' := by
  simp only [isBlank, Bool.or_eq_true, beq_iff_eq, or_assoc]

/-- What may follow a value is no part of a number. -/
theorem MayFollow.not_part (h : MayFollow rest) :
    ∀ c ∈ rest.head?, c.isDigit = false ∧ c ≠ '.' ∧ c ≠ 'e' ∧ c ≠ 'E' := by
  intro c hc
  obtain hblank | rfl | rfl | rfl := h c hc
  · obtain rfl | rfl | rfl | rfl := isBlank_iff.1 hblank <;> decide
  all_goals decide

theorem MayFollow.noDigit (h : MayFollow rest) : NoDigit rest := fun c hc => (h.not_part c hc).1

/-! ### Numbers -/

/-- A run of digits. -/
def IsDigits (digits : List Char) : Prop := digits ≠ [] ∧ ∀ c ∈ digits, c.isDigit

instance : DecidablePred IsDigits := fun digits =>
  have : Decidable (∀ c ∈ digits, c.isDigit) := List.decidableBAll (fun c => c.isDigit) digits
  inferInstanceAs (Decidable (digits ≠ [] ∧ ∀ c ∈ digits, c.isDigit))

/-- The digits before the point: no zero in front of others. -/
def IsWhole (digits : List Char) : Prop :=
  IsDigits digits ∧ ∀ more, digits = '0' :: more → more = []

/-- The spellings of the digits after the point. -/
inductive SpellsFraction : Option (List Char) → List Char → Prop
  | absent : SpellsFraction none []
  | present {digits : List Char} : IsDigits digits → SpellsFraction (some digits) ('.' :: digits)

/-- The signs of an exponent, with whether it is negative. -/
def exponentSigns : List (Bool × List Char) := [(false, []), (false, ['+']), (true, ['-'])]

/-- The spellings of the exponent. -/
inductive SpellsExponent : Option (Bool × List Char) → List Char → Prop
  | absent : SpellsExponent none []
  | present {letter : Char} {negative : Bool} {sign digits : List Char} : letter ∈ ['e', 'E'] →
      (negative, sign) ∈ exponentSigns → IsDigits digits →
      SpellsExponent (some (negative, digits)) (letter :: (sign ++ digits))

/-- The spellings of a number without its sign. -/
inductive SpellsUnsigned (negative : Bool) : Numeral → List Char → Prop
  | parts {digits fractionText exponentText : List Char} {fraction : Option (List Char)}
      {exponent : Option (Bool × List Char)} : IsWhole digits →
      SpellsFraction fraction fractionText → SpellsExponent exponent exponentText →
      SpellsUnsigned negative ⟨negative, digits, fraction, exponent⟩
        (digits ++ (fractionText ++ exponentText))

/-- The spellings of a number. -/
inductive SpellsNumeral (numeral : Numeral) : List Char → Prop
  | positive {text : List Char} : SpellsUnsigned false numeral text → SpellsNumeral numeral text
  | negative {text : List Char} :
      SpellsUnsigned true numeral text → SpellsNumeral numeral ('-' :: text)

theorem IsDigits.exists_cons (h : IsDigits text) :
    ∃ c more, text = c :: more ∧ c.isDigit = true := by
  obtain ⟨c, more, rfl⟩ := List.exists_cons_of_ne_nil h.1
  exact ⟨c, more, rfl, h.2 c List.mem_cons_self⟩

theorem scanDigits_append (h : IsDigits text) (hrest : NoDigit rest) :
    scanDigits (text ++ rest) = some (text, rest) := by
  have hstop : rest.takeWhile Char.isDigit = [] ∧ rest.dropWhile Char.isDigit = rest := by
    cases rest with
    | nil => exact ⟨rfl, rfl⟩
    | cons c rest =>
        have hc : c.isDigit = false := hrest c rfl
        simp [hc]
  rw [scanDigits, List.takeWhile_append_of_pos h.2, List.dropWhile_append_of_pos h.2, hstop.1,
    hstop.2, List.append_nil, if_neg]
  rw [List.isEmpty_iff]
  exact h.1

theorem scanWhole_append (h : IsWhole text) (hrest : NoDigit rest) :
    scanWhole (text ++ rest) = some (text, rest) := by
  rw [scanWhole, scanDigits_append h.1 hrest, Option.filter_some, if_pos]
  split
  · next _ heq => exact absurd (h.2 _ heq) (List.cons_ne_nil _ _)
  · rfl

theorem SpellsFraction.scan {fraction : Option (List Char)} (h : SpellsFraction fraction text)
    (hrest : NoDigit rest) (hpoint : ∀ c ∈ rest.head?, c ≠ '.') :
    scanFraction (text ++ rest) = some (fraction, rest) := by
  cases h with
  | absent =>
      rw [List.nil_append, scanFraction]
      rintro more rfl
      exact hpoint '.' rfl rfl
  | present hdigits =>
      rw [List.cons_append, scanFraction, scanDigits_append hdigits hrest, Option.map_some]

theorem scanSigned_append {negative : Bool} {sign : List Char}
    (hsign : (negative, sign) ∈ exponentSigns) (h : IsDigits text) (hrest : NoDigit rest) :
    scanSigned (sign ++ text ++ rest) = some ((negative, text), rest) := by
  simp only [exponentSigns, List.mem_cons, Prod.mk.injEq, List.not_mem_nil, or_false] at hsign
  obtain ⟨rfl, rfl⟩ | ⟨rfl, rfl⟩ | ⟨rfl, rfl⟩ := hsign
  · obtain ⟨c, more, rfl, hdigit⟩ := h.exists_cons
    rw [List.nil_append, scanSigned, scanDigits_append h hrest, Option.map_some]
    · rintro _ heq
      cases heq
      cases hdigit
    · rintro _ heq
      cases heq
      cases hdigit
  · rw [List.append_assoc, List.singleton_append, scanSigned, scanDigits_append h hrest,
      Option.map_some]
  · rw [List.append_assoc, List.singleton_append, scanSigned, scanDigits_append h hrest,
      Option.map_some]

theorem SpellsExponent.scan {exponent : Option (Bool × List Char)}
    (h : SpellsExponent exponent text) (hrest : MayFollow rest) :
    scanExponent (text ++ rest) = some (exponent, rest) := by
  cases h with
  | absent =>
      rw [List.nil_append, scanExponent]
      · rintro more rfl
        exact (hrest.not_part 'e' rfl).2.2.1 rfl
      · rintro more rfl
        exact (hrest.not_part 'E' rfl).2.2.2 rfl
  | present hletter hsign hdigits =>
      have hscan := scanSigned_append hsign hdigits hrest.noDigit
      simp only [List.mem_cons, List.not_mem_nil, or_false] at hletter
      obtain rfl | rfl := hletter
      · rw [List.cons_append, scanExponent, hscan, Option.map_some]
      · rw [List.cons_append, scanExponent, hscan, Option.map_some]

theorem SpellsFraction.mayStart {fraction : Option (List Char)} (h : SpellsFraction fraction text)
    (hrest : NoDigit rest) : NoDigit (text ++ rest) := by
  cases h with
  | absent => exact hrest
  | present =>
      rintro _ ⟨⟩
      rfl

theorem SpellsExponent.mayStart {exponent : Option (Bool × List Char)}
    (h : SpellsExponent exponent text) (hrest : MayFollow rest) :
    ∀ c ∈ (text ++ rest).head?, c.isDigit = false ∧ c ≠ '.' := by
  cases h with
  | absent => exact fun c hc => ⟨(hrest.not_part c hc).1, (hrest.not_part c hc).2.1⟩
  | present hletter =>
      rintro _ ⟨⟩
      simp only [List.mem_cons, List.not_mem_nil, or_false] at hletter
      obtain rfl | rfl := hletter <;> decide

theorem SpellsUnsigned.scan {negative : Bool} {numeral : Numeral}
    (h : SpellsUnsigned negative numeral text) (hrest : MayFollow rest) :
    scanUnsigned negative (text ++ rest) = some (numeral, rest) := by
  cases h with
  | parts hwhole hfraction hexponent =>
      have hstart := hexponent.mayStart hrest
      have hdigit : NoDigit _ := fun c hc => (hstart c hc).1
      rw [List.append_assoc, List.append_assoc, scanUnsigned,
        scanWhole_append hwhole (hfraction.mayStart hdigit), Option.bind_some,
        hfraction.scan hdigit fun c hc => (hstart c hc).2, Option.bind_some,
        hexponent.scan hrest, Option.map_some]

theorem SpellsUnsigned.exists_cons {negative : Bool} {numeral : Numeral}
    (h : SpellsUnsigned negative numeral text) : ∃ c more, text = c :: more ∧ c.isDigit = true := by
  cases h with
  | parts hwhole =>
      obtain ⟨c, more, rfl, hdigit⟩ := hwhole.1.exists_cons
      exact ⟨c, _, rfl, hdigit⟩

theorem SpellsNumeral.exists_cons {numeral : Numeral} (h : SpellsNumeral numeral text) :
    ∃ c more, text = c :: more ∧ (c = '-' ∨ c.isDigit = true) := by
  cases h with
  | positive h =>
      obtain ⟨c, more, rfl, hdigit⟩ := h.exists_cons
      exact ⟨c, more, rfl, .inr hdigit⟩
  | negative => exact ⟨'-', _, rfl, .inl rfl⟩

/-- A number is read as it is written. -/
theorem scanNumeral_spells {numeral : Numeral} (h : SpellsNumeral numeral text)
    (hrest : MayFollow rest) : scanNumeral (text ++ rest) = some (numeral, rest) := by
  cases h with
  | positive h =>
      rw [scanNumeral, h.scan hrest]
      obtain ⟨c, more, rfl, hdigit⟩ := h.exists_cons
      rintro _ heq
      cases heq
      cases hdigit
  | negative h => rw [List.cons_append, scanNumeral, h.scan hrest]

/-! ### Values -/

/-- The name of a member, with blanks around it. -/
def IsName (text : List Char) : Prop := ∃ body, IsBody body ∧ Padded ('"' :: (body ++ ['"'])) text

/-- A value, with blanks around it. -/
inductive IsValue : List Char → Prop
  | null : IsValue "null".toList
  | true : IsValue "true".toList
  | false : IsValue "false".toList
  | number {numeral : Numeral} {text : List Char} : SpellsNumeral numeral text → IsValue text
  | string {body : List Char} : IsBody body → IsValue ('"' :: (body ++ ['"']))
  | array {items : List (List Char)} {blanks : List Char} : (∀ item ∈ items, IsValue item) →
      AreBlank blanks → IsValue ('[' :: (separate items ++ (blanks ++ [']'])))
  | object {members : List (List Char × List Char)} {blanks : List Char} :
      (∀ member ∈ members, IsName member.1) → (∀ member ∈ members, IsValue member.2) →
      AreBlank blanks →
      IsValue ('{' :: (separate (members.map fun member => member.1 ++ ':' :: member.2) ++
        (blanks ++ ['}'])))
  | padded {token text : List Char} : IsValue token → Padded token text → IsValue text

/-- The text is skipped as a value, up to blanks behind it. -/
def Skips (text : List Char) : Prop :=
  ∀ fuel rest, MayFollow rest → 2 * (text ++ rest).length ≤ fuel →
    ∃ left, skipValueWithin fuel (text ++ rest) = some left ∧ skipBlanks left = skipBlanks rest

theorem skipValueWithin_congr {input input' : List Char}
    (h : skipBlanks input = skipBlanks input') :
    skipValueWithin fuel input = skipValueWithin fuel input' := by
  cases fuel with
  | zero => rfl
  | succ fuel => rw [skipValueWithin, skipValueWithin, h]

theorem skipElements_congr {input input' : List Char} (h : skipBlanks input = skipBlanks input') :
    skipElements fuel input = skipElements fuel input' := by
  cases fuel with
  | zero => rfl
  | succ fuel => rw [skipElements, skipElements, skipValueWithin_congr h]

theorem skipMembers_congr {input input' : List Char} (h : skipBlanks input = skipBlanks input') :
    skipMembers fuel input = skipMembers fuel input' := by
  cases fuel with
  | zero => rfl
  | succ fuel => rw [skipMembers, skipMembers, skipName, skipName, h]

theorem isBlank_of_number {c : Char} (hc : c = '-' ∨ c.isDigit = true) : isBlank c = false := by
  refine Bool.eq_false_iff.2 fun h => ?_
  obtain rfl | rfl | rfl | rfl := isBlank_iff.1 h <;> revert hc <;> decide

theorem skipValueWithin_number {c : Char} (hc : c = '-' ∨ c.isDigit = true) (rest : List Char) :
    skipValueWithin (fuel + 1) (c :: rest) = (scanNumeral (c :: rest)).map Prod.snd := by
  rw [skipValueWithin, skipBlanks_cons (isBlank_of_number hc)]
  split <;> simp_all

theorem exists_fuel {c : Char} (h : 2 * (c :: rest).length ≤ fuel) :
    ∃ less, fuel = less + 1 ∧ 2 * rest.length < less := by
  rw [List.length_cons] at h
  exact ⟨fuel - 1, by omega, by omega⟩

theorem skips_number {numeral : Numeral} (h : SpellsNumeral numeral text) : Skips text := by
  intro fuel rest hrest hfuel
  obtain ⟨c, more, rfl, hc⟩ := h.exists_cons
  obtain ⟨less, rfl, -⟩ := exists_fuel hfuel
  refine ⟨rest, ?_, rfl⟩
  rw [List.cons_append, skipValueWithin_number hc, ← List.cons_append, scanNumeral_spells h hrest,
    Option.map_some]

theorem skips_string {body : List Char} (h : IsBody body) : Skips ('"' :: (body ++ ['"'])) := by
  intro fuel rest hrest hfuel
  obtain ⟨less, rfl, -⟩ := exists_fuel hfuel
  refine ⟨rest, ?_, rfl⟩
  rw [List.cons_append, List.append_assoc, List.singleton_append, skipValueWithin,
    skipBlanks_cons rfl]
  exact skipString_isBody h rest

theorem skips_padded {token : List Char} (h : Skips token) (hpadded : Padded token text) :
    Skips text := by
  obtain ⟨hleft, hright⟩ := hpadded
  intro fuel rest hrest hfuel
  rw [List.append_assoc, List.append_assoc] at hfuel ⊢
  rw [List.length_append] at hfuel
  obtain ⟨left, hskip, hblanks⟩ := h fuel _ (hrest.append_left hright) (by omega)
  refine ⟨left, ?_, hblanks.trans (skipBlanks_append hright rest)⟩
  rw [← hskip]
  exact skipValueWithin_congr (skipBlanks_append hleft _)

/-! ### Lists of values -/

/-- The next character but for blanks is the one that closes. -/
theorem mayFollow_of_skipBlanks {c : Char} (h : skipBlanks tail = c :: rest)
    (hc : c = ',' ∨ c = ']' ∨ c = '}') : MayFollow tail := by
  cases tail with
  | nil => cases h
  | cons d tail =>
      refine mayFollow_cons ?_
      cases hblank : isBlank d with
      | true => exact .inl rfl
      | false =>
          rw [skipBlanks_cons hblank] at h
          cases h
          exact .inr hc

theorem skipElements_followed (hitems : ∀ other ∈ item :: items, Skips other)
    (htail : skipBlanks tail = ']' :: rest)
    (hfuel : 2 * (item ++ followed items tail).length < fuel) :
    skipElements fuel (item ++ followed items tail) = some rest := by
  induction items generalizing item fuel with
  | nil =>
      obtain ⟨hitem, -⟩ := List.forall_mem_cons.1 hitems
      obtain ⟨fuel, rfl⟩ := Nat.exists_add_one_eq.2 (Nat.zero_lt_of_lt hfuel)
      have hfollow : MayFollow tail := mayFollow_of_skipBlanks htail (.inr (.inl rfl))
      obtain ⟨left, hskip, hblanks⟩ := hitem fuel tail hfollow (Nat.le_of_lt_succ hfuel)
      rw [followed_nil, skipElements, hskip, Option.bind_some, hblanks, htail]
      rfl
  | cons next items ih =>
      obtain ⟨hitem, hitems⟩ := List.forall_mem_cons.1 hitems
      obtain ⟨fuel, rfl⟩ := Nat.exists_add_one_eq.2 (Nat.zero_lt_of_lt hfuel)
      have hfollow : MayFollow (followed (next :: items) tail) := mayFollow_cons (.inr (.inl rfl))
      obtain ⟨left, hskip, hblanks⟩ := hitem fuel _ hfollow (Nat.le_of_lt_succ hfuel)
      rw [skipElements, hskip, Option.bind_some, hblanks, followed_cons, skipBlanks_cons rfl]
      refine ih hitems ?_
      rw [followed_cons, List.length_append, List.length_cons] at hfuel
      omega

theorem skipName_isName (h : IsName name) (rest : List Char) :
    skipName (name ++ ':' :: rest) = some rest := by
  obtain ⟨body, hbody, hleft, hright⟩ := h
  rw [List.append_assoc, List.append_assoc, skipName, List.cons_append, List.append_assoc,
    List.singleton_append, skipBlanks_append_cons hleft rfl]
  simp only [skipString_isBody hbody, Option.bind_some, skipBlanks_append_cons (c := ':') hright rfl]

/-- The text is skipped as a member. -/
def SkipsMember (text : List Char) : Prop :=
  ∃ name value, IsName name ∧ Skips value ∧ text = name ++ ':' :: value

theorem SkipsMember.exists_skip (h : SkipsMember text) (hrest : MayFollow rest)
    (hfuel : 2 * (text ++ rest).length ≤ fuel) :
    ∃ left, (skipName (text ++ rest)).bind (skipValueWithin fuel) = some left ∧
      skipBlanks left = skipBlanks rest := by
  obtain ⟨name, value, hname, hvalue, rfl⟩ := h
  rw [List.append_assoc, List.cons_append] at hfuel ⊢
  rw [List.length_append, List.length_cons] at hfuel
  rw [skipName_isName hname, Option.bind_some]
  exact hvalue fuel rest hrest (by omega)

theorem SkipsMember.not_close (h : SkipsMember text) (tail rest : List Char) :
    skipBlanks (text ++ tail) ≠ '}' :: rest := by
  obtain ⟨_, value, ⟨body, -, hleft, hright⟩, -, rfl⟩ := h
  rw [List.append_assoc, List.append_assoc, List.append_assoc, skipBlanks_append hleft,
    List.cons_append, skipBlanks_cons rfl]
  rintro ⟨⟩

theorem skipMembers_followed (hitems : ∀ other ∈ item :: items, SkipsMember other)
    (htail : skipBlanks tail = '}' :: rest)
    (hfuel : 2 * (item ++ followed items tail).length < fuel) :
    skipMembers fuel (item ++ followed items tail) = some rest := by
  induction items generalizing item fuel with
  | nil =>
      obtain ⟨hitem, -⟩ := List.forall_mem_cons.1 hitems
      obtain ⟨fuel, rfl⟩ := Nat.exists_add_one_eq.2 (Nat.zero_lt_of_lt hfuel)
      have hfollow : MayFollow tail := mayFollow_of_skipBlanks htail (.inr (.inr rfl))
      obtain ⟨left, hskip, hblanks⟩ := hitem.exists_skip hfollow (Nat.le_of_lt_succ hfuel)
      rw [followed_nil, skipMembers, ← Option.bind_assoc, hskip, Option.bind_some, hblanks, htail]
      rfl
  | cons next items ih =>
      obtain ⟨hitem, hitems⟩ := List.forall_mem_cons.1 hitems
      obtain ⟨fuel, rfl⟩ := Nat.exists_add_one_eq.2 (Nat.zero_lt_of_lt hfuel)
      have hfollow : MayFollow (followed (next :: items) tail) := mayFollow_cons (.inr (.inl rfl))
      obtain ⟨left, hskip, hblanks⟩ := hitem.exists_skip hfollow (Nat.le_of_lt_succ hfuel)
      rw [skipMembers, ← Option.bind_assoc, hskip, Option.bind_some, hblanks, followed_cons,
        skipBlanks_cons rfl]
      refine ih hitems ?_
      rw [followed_cons, List.length_append, List.length_cons] at hfuel
      omega

/-- A text that is skipped as a value does not start like the end of a list. -/
theorem Skips.not_close (h : Skips text) (htail : MayFollow tail) (rest : List Char) :
    skipBlanks (text ++ tail) ≠ ']' :: rest := by
  intro hclose
  obtain ⟨left, hskip, -⟩ := h (2 * (text ++ tail).length + 1) tail htail (Nat.le_succ _)
  rw [skipValueWithin, hclose] at hskip
  cases hskip

theorem skips_array {blanks : List Char} (hitems : ∀ item ∈ items, Skips item)
    (hblanks : AreBlank blanks) : Skips ('[' :: (separate items ++ (blanks ++ [']']))) := by
  intro fuel rest hrest hfuel
  have hclose := skipBlanks_append_cons (c := ']') hblanks rfl rest
  rw [List.cons_append, List.append_assoc, List.append_assoc, List.singleton_append] at hfuel ⊢
  obtain ⟨less, rfl, hless⟩ := exists_fuel hfuel
  refine ⟨rest, ?_, rfl⟩
  rw [skipValueWithin, skipBlanks_cons rfl]
  cases items with
  | nil => simp only [separate, List.nil_append, hclose]
  | cons item items =>
      rw [separate_cons_append] at hless ⊢
      have hfollow : MayFollow (followed items (blanks ++ ']' :: rest)) :=
        mayFollow_followed (mayFollow_of_skipBlanks hclose (.inr (.inl rfl)))
      have hopen := (hitems item List.mem_cons_self).not_close hfollow
      have hskip := skipElements_followed hitems hclose hless
      -- the bracket that would close at once is ruled out
      simp only
      rw [← hskip]
      exact skipElements_congr (skipBlanks_skipBlanks _)

theorem skips_object {members : List (List Char)} {blanks : List Char}
    (hmembers : ∀ member ∈ members, SkipsMember member) (hblanks : AreBlank blanks) :
    Skips ('{' :: (separate members ++ (blanks ++ ['}']))) := by
  intro fuel rest hrest hfuel
  have hclose := skipBlanks_append_cons (c := '}') hblanks rfl rest
  rw [List.cons_append, List.append_assoc, List.append_assoc, List.singleton_append] at hfuel ⊢
  obtain ⟨less, rfl, hless⟩ := exists_fuel hfuel
  refine ⟨rest, ?_, rfl⟩
  rw [skipValueWithin, skipBlanks_cons rfl]
  cases members with
  | nil => simp only [separate, List.nil_append, hclose]
  | cons member members =>
      rw [separate_cons_append] at hless ⊢
      have hopen := (hmembers member List.mem_cons_self).not_close
        (followed members (blanks ++ '}' :: rest))
      have hskip := skipMembers_followed hmembers hclose hless
      simp only
      rw [← hskip]
      exact skipMembers_congr (skipBlanks_skipBlanks _)

/-- Every value is skipped. -/
theorem IsValue.skips (h : IsValue text) : Skips text := by
  induction h with
  | null | true | false =>
      intro fuel rest hrest hfuel
      obtain ⟨less, rfl, -⟩ := exists_fuel hfuel
      exact ⟨rest, rfl, rfl⟩
  | number hnumeral => exact skips_number hnumeral
  | string hbody => exact skips_string hbody
  | array _ hblanks ih => exact skips_array ih hblanks
  | object hnames _ hblanks ih =>
      refine skips_object (fun text htext => ?_) hblanks
      obtain ⟨member, hmember, rfl⟩ := List.mem_map.1 htext
      exact ⟨_, _, hnames member hmember, ih member hmember, rfl⟩
  | padded _ hpadded ih => exact skips_padded ih hpadded

end Json

end Typeahead
