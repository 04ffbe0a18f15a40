/-
Bytes read as text when they need not be one.

Bytes are read from the left, one encoded character after another.  Where no character is encoded,
the replacement character stands for the longest stretch that begins the encoding of one, or for a
single byte if there is none.  There is no choice in this.  The bytes of a text are read as that
text, and a character that is cut off shows as one replacement character.

Main definitions:

* `Typeahead.Text.encoded` — the bytes of a list of characters;
* `Typeahead.Text.BeginsCharacter` — the bytes begin the encoding of a character;
* `Typeahead.Text.IsBroken` — a stretch that a replacement character stands for;
* `Typeahead.Text.ReadsAsText` — what a list of bytes is read as.

Main results:

* `Typeahead.Text.ReadsAsText.unique` — there is one reading only;
* `Typeahead.Text.readsAsText_append` — encoded characters are read as what they are;
* `Typeahead.Text.readsAsText_cut` — a character that is cut off shows as one replacement character;
* `Typeahead.Text.readsAsText_lossy` — the reading is computed.
-/

import Typeahead.Proofs.LeftOfCursor
import Typeahead.Text.Bytes

set_option relaxedAutoImplicit false
set_option autoImplicit false

namespace Typeahead

namespace Text

/-! ### Encoded characters -/

/-- The bytes of a list of characters. -/
def encoded (cs : List Char) : List UInt8 := cs.flatMap String.utf8EncodeChar

@[simp] theorem encoded_nil : encoded [] = [] := rfl

@[simp] theorem encoded_cons (c : Char) (cs : List Char) :
    encoded (c :: cs) = String.utf8EncodeChar c ++ encoded cs := List.flatMap_cons

@[simp] theorem encoded_append (cs ds : List Char) :
    encoded (cs ++ ds) = encoded cs ++ encoded ds := List.flatMap_append

@[simp] theorem length_encoded (cs : List Char) : (encoded cs).length = byteLength cs := by
  induction cs with
  | nil => rfl
  | cons c cs ih => rw [encoded_cons, List.length_append, ih, String.length_utf8EncodeChar,
      byteLength_cons]

/-- At a place at most one character is encoded. -/
theorem eq_of_utf8EncodeChar_prefix {c d : Char} {bytes : List UInt8}
    (hc : String.utf8EncodeChar c <+: bytes) (hd : String.utf8EncodeChar d <+: bytes) : c = d := by
  obtain ⟨rest, rfl⟩ := hc
  obtain ⟨rest', h⟩ := hd
  exact eq_of_utf8EncodeChar_append h.symm

theorem utf8Bytes_eq_encoded (text : String) : utf8Bytes text = encoded text.toList :=
  utf8Bytes_eq text

theorem utf8ByteSize_eq_byteLength (text : String) :
    text.utf8ByteSize = byteLength text.toList := by
  rw [← length_encoded, ← utf8Bytes_eq_encoded]
  rfl

/-- The bytes begin the encoding of some character. -/
def BeginsCharacter (bytes : List UInt8) : Prop := ∃ c, bytes <+: String.utf8EncodeChar c

/-- In front of `rest` no character is encoded, and `part` is what a replacement character stands
for there: the longest stretch that begins the encoding of some character, or a single byte. -/
structure IsBroken (part rest : List UInt8) : Prop where
  ne_nil : part ≠ []
  no_character : ∀ c, ¬ String.utf8EncodeChar c <+: part ++ rest
  begins : part.length = 1 ∨ BeginsCharacter part
  longest : ∀ other, other <+: part ++ rest → BeginsCharacter other → other.length ≤ part.length

/-- What a list of bytes is read as. -/
inductive ReadsAsText : List UInt8 → List Char → Prop
  | nil : ReadsAsText [] []
  | character {c : Char} {rest : List UInt8} {cs : List Char} : ReadsAsText rest cs →
      ReadsAsText (String.utf8EncodeChar c ++ rest) (c :: cs)
  | replacement {part rest : List UInt8} {cs : List Char} : IsBroken part rest →
      ReadsAsText rest cs → ReadsAsText (part ++ rest) ('\uFFFD' :: cs)

/-! ### One reading only -/

/-- A replacement character stands for at most as many bytes as another one would at its place. -/
theorem IsBroken.length_le {part rest part' rest' : List UInt8} (h : IsBroken part rest)
    (h' : IsBroken part' rest') (heq : part ++ rest = part' ++ rest') :
    part'.length ≤ part.length := by
  rcases h'.begins with hone | hbegins
  · rw [hone]
    exact List.length_pos_iff.2 h.ne_nil
  · exact h.longest part' (heq ▸ List.prefix_append part' rest') hbegins

/-- Bytes are read in one way only. -/
theorem ReadsAsText.unique {bytes bytes' : List UInt8} {cs ds : List Char}
    (h : ReadsAsText bytes cs) (h' : ReadsAsText bytes' ds) (heq : bytes = bytes') : cs = ds := by
  induction h generalizing bytes' ds with
  | nil =>
      cases h' with
      | nil => rfl
      | character =>
          obtain ⟨hnil, -⟩ := List.append_eq_nil_iff.1 heq.symm
          exact absurd hnil String.utf8EncodeChar_ne_nil
      | replacement hbroken =>
          obtain ⟨hnil, -⟩ := List.append_eq_nil_iff.1 heq.symm
          exact absurd hnil hbroken.ne_nil
  | @character c rest cs _ ih =>
      cases h' with
      | nil =>
          obtain ⟨hnil, -⟩ := List.append_eq_nil_iff.1 heq
          exact absurd hnil String.utf8EncodeChar_ne_nil
      | character hrest' =>
          obtain rfl := eq_of_utf8EncodeChar_append heq
          rw [ih hrest' (List.append_cancel_left heq)]
      | replacement hbroken =>
          exact absurd (heq ▸ List.prefix_append _ rest) (hbroken.no_character c)
  | replacement hbroken _ ih =>
      cases h' with
      | nil =>
          obtain ⟨hnil, -⟩ := List.append_eq_nil_iff.1 heq
          exact absurd hnil hbroken.ne_nil
      | @character c rest' =>
          exact absurd (heq ▸ List.prefix_append _ rest') (hbroken.no_character c)
      | replacement hbroken' hrest' =>
          have hlength := le_antisymm (hbroken'.length_le hbroken heq.symm)
            (hbroken.length_le hbroken' heq)
          obtain ⟨-, hrest⟩ := List.append_inj heq hlength
          rw [ih hrest' hrest]

/-! ### Bytes of a text -/

/-- Encoded characters are read as what they are. -/
theorem readsAsText_append {bytes : List UInt8} {ds : List Char} (cs : List Char)
    (h : ReadsAsText bytes ds) : ReadsAsText (encoded cs ++ bytes) (cs ++ ds) := by
  induction cs with
  | nil => exact h
  | cons c cs ih =>
      rw [encoded_cons, List.append_assoc, List.cons_append]
      exact .character ih

/-- A character that is cut off shows as one replacement character. -/
theorem readsAsText_cut {c : Char} {n : Nat} (hpos : 0 < n) (hlt : n < c.utf8Size) :
    ReadsAsText ((String.utf8EncodeChar c).take n) ['\uFFFD'] := by
  have hlength : ((String.utf8EncodeChar c).take n).length = n := by
    rw [List.length_take, String.length_utf8EncodeChar, min_eq_left hlt.le]
  have hpart : (String.utf8EncodeChar c).take n <+: String.utf8EncodeChar c := List.take_prefix ..
  have hbroken : IsBroken ((String.utf8EncodeChar c).take n) [] := by
    refine ⟨List.length_pos_iff.1 (by rwa [hlength]), ?_, .inr ⟨c, hpart⟩, ?_⟩
    · intro d hd
      rw [List.append_nil] at hd
      -- the only character that could be encoded there is the one that is cut off
      obtain rfl := eq_of_utf8EncodeChar_prefix (hd.trans hpart) (List.prefix_refl _)
      have hle := hd.length_le
      rw [hlength, String.length_utf8EncodeChar] at hle
      exact absurd hlt (not_lt.2 hle)
    · intro other hother _
      rw [List.append_nil] at hother
      exact hother.length_le
  exact List.append_nil ((String.utf8EncodeChar c).take n) ▸ .replacement hbroken .nil

/-! ### Reading bytes -/

/-- The front of the bytes is decoded as the character that is encoded there. -/
theorem firstChar?_eq_some_iff {bytes : List UInt8} {c : Char} :
    firstChar? bytes = some c ↔ String.utf8EncodeChar c <+: bytes := by
  rw [firstChar?]
  constructor
  · intro h
    have hfront := congrArg (fun array => array.data.toList)
      (ByteArray.eq_of_utf8DecodeChar?_eq_some h)
    simp only [ByteArray.data_append, List.data_toByteArray, Array.toList_append,
      List.toList_toArray] at hfront
    exact List.IsPrefix.trans ⟨_, hfront.symm⟩ (List.take_prefix 4 bytes)
  · rintro ⟨rest, rfl⟩
    rw [List.take_append, List.take_of_length_le, List.toByteArray_append]
    · exact ByteArray.utf8DecodeChar?_utf8EncodeChar_append
    · rw [String.length_utf8EncodeChar]
      exact c.utf8Size_le_four

/-- Two or more bytes that begin a character are completed by the least bytes that may follow. -/
theorem exists_completion {c : Char} {n : Nat} (hn : 2 ≤ n) (hlt : n < c.utf8Size) :
    ∃ d, String.utf8EncodeChar d =
      (String.utf8EncodeChar c).take n ++ List.replicate (c.utf8Size - n) 0x80 := by
  have hchar : ∀ k : Nat, k.isValidChar → ∃ d : Char, d.val.toNat = k := fun k hk =>
    ⟨Char.ofNatAux k hk, rfl⟩
  have hvalid := c.valid
  rw [← String.length_utf8EncodeChar] at hlt ⊢
  simp only [String.utf8EncodeChar, UInt32.isValidChar, Nat.isValidChar] at *
  generalize c.val.toNat = v at *
  -- the last bits of the character are cleared
  split_ifs at hlt ⊢ <;> simp only [List.length_cons, List.length_nil] at hlt ⊢
  · omega
  · omega
  · obtain rfl : n = 2 := by omega
    obtain ⟨d, hd⟩ := hchar (64 * (v / 64)) (by omega)
    refine ⟨d, ?_⟩
    have h0 : 64 * (v / 64) / 4096 = v / 4096 := by omega
    have h1 : 64 * (v / 64) / 64 = v / 64 := by omega
    have h2 : 64 * (v / 64) % 64 = 0 := by omega
    rw [hd, if_neg (by omega), if_neg (by omega), if_pos (by omega), h0, h1, h2]
    rfl
  · obtain rfl | rfl : n = 2 ∨ n = 3 := by omega
    · obtain ⟨d, hd⟩ := hchar (4096 * (v / 4096)) (by omega)
      refine ⟨d, ?_⟩
      have h0 : 4096 * (v / 4096) / 262144 = v / 262144 := by omega
      have h1 : 4096 * (v / 4096) / 4096 = v / 4096 := by omega
      have h2 : 4096 * (v / 4096) / 64 % 64 = 0 := by omega
      have h3 : 4096 * (v / 4096) % 64 = 0 := by omega
      rw [hd, if_neg (by omega), if_neg (by omega), if_neg (by omega), h0, h1, h2, h3]
      rfl
    · obtain ⟨d, hd⟩ := hchar (64 * (v / 64)) (by omega)
      refine ⟨d, ?_⟩
      have h0 : 64 * (v / 64) / 262144 = v / 262144 := by omega
      have h1 : 64 * (v / 64) / 4096 = v / 4096 := by omega
      have h2 : 64 * (v / 64) / 64 = v / 64 := by omega
      have h3 : 64 * (v / 64) % 64 = 0 := by omega
      rw [hd, if_neg (by omega), if_neg (by omega), if_neg (by omega), h0, h1, h2, h3]
      rfl

/-- A stretch of two or three bytes that begins a character without ending it is recognized. -/
theorem isCutOff_of_prefix {part : List UInt8} {c : Char} (h : part <+: String.utf8EncodeChar c)
    (hlength : 2 ≤ part.length) (hlt : part.length < c.utf8Size) : isCutOff part = true := by
  obtain ⟨d, hd⟩ := exists_completion hlength hlt
  rw [← List.prefix_iff_eq_take.1 h] at hd
  have hsize := c.utf8Size_le_four
  refine List.any_eq_true.2 ⟨List.replicate (c.utf8Size - part.length) 0x80, ?_,
    Option.isSome_iff_exists.2 ⟨d, firstChar?_eq_some_iff.2 (hd ▸ List.prefix_rfl)⟩⟩
  obtain heq | heq : c.utf8Size - part.length = 1 ∨ c.utf8Size - part.length = 2 := by omega
  · rw [heq]
    exact List.mem_cons_self
  · rw [heq]
    exact List.mem_cons_of_mem _ List.mem_cons_self

/-- What is recognized begins a character. -/
theorem beginsCharacter_of_isCutOff {part : List UInt8} (h : isCutOff part = true)
    (hno : ∀ c, ¬ String.utf8EncodeChar c <+: part) : BeginsCharacter part := by
  obtain ⟨added, -, hsome⟩ := List.any_eq_true.1 h
  obtain ⟨c, hc⟩ := Option.isSome_iff_exists.1 hsome
  have hprefix := firstChar?_eq_some_iff.1 hc
  -- the character does not end within the stretch
  have hle : part.length ≤ (String.utf8EncodeChar c).length := by
    by_contra hlt
    exact hno c (List.prefix_of_prefix_length_le hprefix (List.prefix_append part added) (by omega))
  exact ⟨c, List.prefix_of_prefix_length_le (List.prefix_append part added) hprefix hle⟩

section NoCharacter

variable {bytes : List UInt8} (hno : ∀ c, ¬ String.utf8EncodeChar c <+: bytes)
include hno

/-- Where no character is encoded, a stretch that begins one has at most three bytes, and it is
recognized if it has two. -/
theorem isCutOff_take_length {part : List UInt8} (hpart : part <+: bytes)
    (hbegins : BeginsCharacter part) : part.length ≤ 3 ∧
      (2 ≤ part.length → isCutOff (bytes.take part.length) = true) := by
  obtain ⟨c, hc⟩ := hbegins
  have hlt : part.length < c.utf8Size := by
    by_contra hle
    rw [← String.length_utf8EncodeChar, not_lt] at hle
    exact hno c (hc.eq_of_length_le hle ▸ hpart)
  have hsize := c.utf8Size_le_four
  refine ⟨by omega, fun hlength => ?_⟩
  rw [← List.prefix_iff_eq_take.1 hpart]
  exact isCutOff_of_prefix hc hlength hlt

theorem isBroken_take {n : Nat} (hne : bytes ≠ []) (hpos : 0 < n)
    (hcut : n = 1 ∨ isCutOff (bytes.take n) = true)
    (hlongest : ∀ part, part <+: bytes → BeginsCharacter part → part.length ≤ n) :
    IsBroken (bytes.take n) (bytes.drop n) where
  ne_nil := by
    rw [Ne, List.take_eq_nil_iff]
    exact not_or.2 ⟨hpos.ne', hne⟩
  no_character := by rwa [List.take_append_drop]
  begins := by
    rcases hcut with rfl | hcut
    · obtain ⟨byte, rest, rfl⟩ := List.exists_cons_of_ne_nil hne
      exact .inl rfl
    · exact .inr (beginsCharacter_of_isCutOff hcut fun c hc =>
        hno c (hc.trans (List.take_prefix n _)))
  longest := by
    rw [List.take_append_drop]
    intro part hpart hbegins
    rw [List.length_take]
    exact le_min (hlongest part hpart hbegins) hpart.length_le

/-- Where no character is encoded, the part that is taken off is the broken one. -/
theorem exists_isBroken_brokenPart (hne : bytes ≠ []) :
    ∃ rest, bytes = brokenPart bytes ++ rest ∧ IsBroken (brokenPart bytes) rest := by
  -- a stretch of two or three bytes that is not recognized does not begin a character
  have hshorter : ∀ n, 2 ≤ n + 1 → isCutOff (bytes.take (n + 1)) = false →
      (∀ part, part <+: bytes → BeginsCharacter part → part.length ≤ n + 1) →
      ∀ part, part <+: bytes → BeginsCharacter part → part.length ≤ n := by
    intro n hn hcut hle part hpart hbegins
    refine Nat.le_of_lt_succ ((hle part hpart hbegins).lt_of_ne fun heq => ?_)
    have hfound := (isCutOff_take_length hno hpart hbegins).2 (heq ▸ hn)
    rw [heq, hcut] at hfound
    cases hfound
  have hthree : ∀ part, part <+: bytes → BeginsCharacter part → part.length ≤ 3 :=
    fun _ hpart hbegins => (isCutOff_take_length hno hpart hbegins).1
  obtain ⟨n, hn, hbroken⟩ : ∃ n, brokenPart bytes = bytes.take n ∧
      IsBroken (bytes.take n) (bytes.drop n) := by
    rw [brokenPart, List.find?_cons, List.find?_cons, List.find?_nil]
    cases hcut : isCutOff (bytes.take 3) with
    | true => exact ⟨3, rfl, isBroken_take hno hne (by omega) (.inr hcut) hthree⟩
    | false =>
        have htwo := hshorter 2 (by omega) hcut hthree
        cases hcut' : isCutOff (bytes.take 2) with
        | true => exact ⟨2, rfl, isBroken_take hno hne (by omega) (.inr hcut') htwo⟩
        | false =>
            have hone := hshorter 1 (by omega) hcut' htwo
            exact ⟨1, rfl, isBroken_take hno hne (by omega) (.inl rfl) hone⟩
  rw [hn]
  exact ⟨_, (List.take_append_drop n bytes).symm, hbroken⟩

end NoCharacter

theorem readsAsText_lossyFrom (skipped : Nat) (bytes : List UInt8) :
    ReadsAsText (bytes.drop skipped) (lossyFrom skipped bytes) := by
  induction bytes generalizing skipped with
  | nil =>
      rw [List.drop_nil, lossyFrom]
      exact .nil
  | cons byte bytes ih =>
      cases skipped with
      | succ skipped => exact ih skipped
      | zero =>
          -- the bytes behind what is read first
          have hrest : ∀ {part rest}, byte :: bytes = part ++ rest → part ≠ [] →
              rest = bytes.drop (part.length - 1) := by
            rintro part rest heq hne
            obtain ⟨_, part, rfl⟩ := List.exists_cons_of_ne_nil hne
            obtain ⟨-, rfl⟩ := List.cons.inj heq
            exact (List.drop_left ..).symm
          rw [List.drop_zero, lossyFrom]
          cases hfirst : firstChar? (byte :: bytes) with
          | some c =>
              obtain ⟨rest, heq⟩ := firstChar?_eq_some_iff.1 hfirst
              obtain rfl := hrest heq.symm String.utf8EncodeChar_ne_nil
              rw [← heq, String.length_utf8EncodeChar]
              exact .character (ih _)
          | none =>
              have hno : ∀ c, ¬ String.utf8EncodeChar c <+: byte :: bytes := by
                intro c hc
                rw [firstChar?_eq_some_iff.2 hc] at hfirst
                cases hfirst
              obtain ⟨rest, heq, hbroken⟩ := exists_isBroken_brokenPart hno (List.cons_ne_nil _ _)
              obtain rfl := hrest heq hbroken.ne_nil
              have hread := ReadsAsText.replacement hbroken (ih _)
              rwa [← heq] at hread

/-- Bytes are read as they should be. -/
theorem readsAsText_lossy (bytes : List UInt8) : ReadsAsText bytes (lossy bytes) :=
  readsAsText_lossyFrom 0 bytes

end Text

end Typeahead
