/-
The order of suggestions, byte by byte.

Suggestions are ordered by their characters, and this is how their bytes are ordered: the encodings
of two characters differ at a byte that both have, and there the lesser character has the lesser
byte.  The bytes of a character outside ASCII are greater than all of ASCII, and have no case.

The order tells any two texts apart, so that among sorted texts those which are equal stand next to
each other, and dropping an entry that repeats the one before it leaves each text once.  The result
is a canonical form of the set of texts.

Main definitions:

* `Typeahead.LessInside` — two lists differ at an entry that both have;
* `Typeahead.Ranking.compareBytes` — the order on suggestions, byte by byte.

Main results:

* `Typeahead.Ranking.compare_eq_compareBytes` — the order by characters is the order by bytes;
* `Typeahead.Ranking.compare_placeholder` — a text that begins with `<` comes before all others;
* `Typeahead.Ranking.rank_canonical` — the order is total, and ranked lists are a canonical form.
-/

import Typeahead.Proofs.LossyDecoding

set_option relaxedAutoImplicit false
set_option autoImplicit false

namespace Typeahead

/-! ### Lists that differ inside -/

section Inside

variable {α β : Type} [Ord α] [Ord β] {xs ys : List α}

/-- At the first entry where they differ, both lists have an entry, and that of the first one is
less. -/
inductive LessInside : List α → List α → Prop
  | here {x y : α} {xs ys : List α} : compare x y = .lt → LessInside (x :: xs) (y :: ys)
  | there {x : α} {xs ys : List α} : LessInside xs ys → LessInside (x :: xs) (x :: ys)

theorem compare_append_left [Std.ReflOrd α] (before xs ys : List α) :
    compare (before ++ xs) (before ++ ys) = compare xs ys := by
  induction before with
  | nil => rfl
  | cons x before ih =>
      rw [List.cons_append, List.cons_append, List.compare_cons_cons, Std.ReflOrd.compare_self,
        Ordering.eq_then, ih]

/-- What comes behind the difference does not count. -/
theorem LessInside.compare_append [Std.ReflOrd α] (h : LessInside xs ys) (us vs : List α) :
    compare (xs ++ us) (ys ++ vs) = .lt := by
  induction h with
  | here hlt =>
      rw [List.cons_append, List.cons_append, List.compare_cons_cons, hlt, Ordering.lt_then]
  | there _ ih =>
      rw [List.cons_append, List.cons_append, List.compare_cons_cons, Std.ReflOrd.compare_self,
        Ordering.eq_then, ih]

theorem LessInside.map {f : α → β} (h : LessInside xs ys)
    (hf : ∀ x ∈ xs, ∀ y ∈ ys, compare x y = .lt → compare (f x) (f y) = .lt) :
    LessInside (xs.map f) (ys.map f) := by
  induction h with
  | here hlt => exact .here (hf _ List.mem_cons_self _ List.mem_cons_self hlt)
  | there _ ih =>
      refine .there (ih fun x hx y hy => ?_)
      exact hf x (List.mem_cons_of_mem _ hx) y (List.mem_cons_of_mem _ hy)

/-- Each character of two texts is spelled out.  Where the spellings are ordered as the characters
are, so are the spelled texts. -/
theorem compare_flatMap [Std.TransOrd β] {place : Char → Nat} {spell : Char → List β}
    (hnil : ∀ c, spell c ≠ []) (heq : ∀ c d, place c = place d → spell c = spell d)
    (hlt : ∀ c d, place c < place d → LessInside (spell c) (spell d)) (cs ds : List Char) :
    compare (cs.flatMap spell) (ds.flatMap spell) = compare (cs.map place) (ds.map place) := by
  induction cs generalizing ds with
  | nil =>
      cases ds with
      | nil => rfl
      | cons d ds =>
          obtain ⟨y, ys, hspell⟩ := List.exists_cons_of_ne_nil (hnil d)
          rw [List.flatMap_cons, hspell]
          rfl
  | cons c cs ih =>
      cases ds with
      | nil =>
          obtain ⟨x, xs, hspell⟩ := List.exists_cons_of_ne_nil (hnil c)
          rw [List.flatMap_cons, hspell]
          rfl
      | cons d ds =>
          rw [List.flatMap_cons, List.flatMap_cons, List.map_cons, List.map_cons,
            List.compare_cons_cons]
          rcases Nat.lt_trichotomy (place c) (place d) with hless | hsame | hgreater
          · rw [Nat.compare_eq_lt.2 hless, Ordering.lt_then]
            exact (hlt c d hless).compare_append _ _
          · rw [heq c d hsame, hsame, Nat.compare_eq_eq.2 rfl, Ordering.eq_then,
              compare_append_left, ih]
          · rw [Nat.compare_eq_gt.2 hgreater, Ordering.gt_then]
            exact Std.OrientedCmp.gt_of_lt ((hlt d c hgreater).compare_append _ _)

end Inside

/-! ### Bytes of characters -/

theorem lessInside_of_lt {xs ys : List UInt8} (h : xs < ys) (hnot : ¬ xs <+: ys) :
    LessInside xs ys := by
  induction xs generalizing ys with
  | nil => exact absurd ys.nil_prefix hnot
  | cons x xs ih =>
      cases ys with
      | nil => cases h
      | cons y ys =>
          rcases List.cons_lt_cons_iff.1 h with hlt | ⟨rfl, hrest⟩
          · exact .here (Std.compare_eq_lt.2 hlt)
          · exact .there (ih hrest fun hbegins => hnot (List.cons_prefix_cons.2 ⟨rfl, hbegins⟩))

/-- The encodings of two characters differ at some byte that both have. -/
theorem lessInside_utf8EncodeChar {c d : Char} (h : c.toNat < d.toNat) :
    LessInside (String.utf8EncodeChar c) (String.utf8EncodeChar d) := by
  have hlt : String.utf8EncodeChar c < String.utf8EncodeChar d := by
    simpa only [List.append_nil] using utf8EncodeChar_lt h [] []
  refine lessInside_of_lt hlt ?_
  intro hbegins
  obtain rfl : c = d := Text.eq_of_utf8EncodeChar_prefix hbegins List.prefix_rfl
  exact Nat.lt_irrefl _ h

theorem utf8EncodeChar_of_lt {c : Char} (h : c.toNat < 128) :
    String.utf8EncodeChar c = [c.toNat.toUInt8] := by
  have hc : c.val.toNat = c.toNat := rfl
  rw [String.utf8EncodeChar, hc, if_pos (by omega)]

/-- Outside ASCII all bytes are greater than ASCII. -/
theorem le_of_mem_utf8EncodeChar {c : Char} (h : 128 ≤ c.toNat) {byte : UInt8}
    (hbyte : byte ∈ String.utf8EncodeChar c) : 128 ≤ byte.toNat := by
  have hc : c.val.toNat = c.toNat := rfl
  rw [String.utf8EncodeChar, hc, if_neg (by omega)] at hbyte
  generalize c.toNat = n at *
  split_ifs at hbyte <;>
    simp only [List.mem_cons, List.not_mem_nil, or_false] at hbyte <;>
    rcases hbyte with rfl | rfl | rfl | rfl <;>
    rw [UInt8.toNat_ofNat'] <;>
    omega

namespace Ranking

/-! ### Places of bytes -/

/-- The place of a byte: that of `<` first, and those of upper case letters with their lower
case. -/
def byteRank (byte : UInt8) : Nat :=
  if byte.toNat = 60 then 0
  else if 65 ≤ byte.toNat ∧ byte.toNat ≤ 90 then 1 + byte.toNat + 32
  else 1 + byte.toNat

/-- The order on suggestions byte by byte: by place first, and by the bytes themselves among texts of
equal places. -/
def compareBytes (xs ys : List UInt8) : Ordering :=
  (Ord.compare (xs.map byteRank) (ys.map byteRank)).then (Ord.compare xs ys)

theorem charRank_eq (c : Char) :
    charRank c = if c.toNat = 60 then 0
      else if 65 ≤ c.toNat ∧ c.toNat ≤ 90 then 1 + c.toNat + 32 else 1 + c.toNat := by
  have hplaceholder : c = '<' ↔ c.toNat = 60 := Char.toNat_inj.symm
  have hupper : (c.val ≥ 'A'.val ∧ c.val ≤ 'Z'.val) ↔ (65 ≤ c.toNat ∧ c.toNat ≤ 90) := by
    rw [ge_iff_le, UInt32.le_iff_toNat_le, UInt32.le_iff_toNat_le]
    rfl
  rw [charRank]
  refine if_congr hplaceholder rfl ?_
  by_cases h : c.val ≥ 'A'.val ∧ c.val ≤ 'Z'.val
  · have hlower : c.toLower = _ := dif_pos h
    have hstep : ('a'.val - 'A'.val).toNat = 32 := rfl
    have hle := (hupper.1 h).2
    rw [if_pos (hupper.1 h), hlower]
    simp only [Char.toNat, UInt32.toNat_add, hstep] at hle ⊢
    omega
  · have hlower : c.toLower = c := dif_neg h
    rw [if_neg fun hle => h (hupper.2 hle), hlower]

/-- In ASCII a byte has the place of its character. -/
theorem map_byteRank_of_lt {c : Char} (h : c.toNat < 128) :
    (String.utf8EncodeChar c).map byteRank = [charRank c] := by
  have hbyte : c.toNat.toUInt8.toNat = c.toNat := by
    rw [Nat.toUInt8_eq, UInt8.toNat_ofNat']
    omega
  rw [utf8EncodeChar_of_lt h, List.map_singleton, byteRank, hbyte, charRank_eq]

theorem charRank_of_le {c : Char} (h : 128 ≤ c.toNat) : charRank c = 1 + c.toNat := by
  rw [charRank_eq, if_neg (by omega), if_neg (by omega)]

theorem charRank_le {c : Char} (h : c.toNat < 128) : charRank c ≤ 128 := by
  rw [charRank_eq]
  split_ifs <;> omega

theorem byteRank_of_le {byte : UInt8} (h : 128 ≤ byte.toNat) : byteRank byte = 1 + byte.toNat := by
  rw [byteRank, if_neg (by omega), if_neg (by omega)]

/-- Characters of the same place have bytes of the same places. -/
theorem map_byteRank_eq {c d : Char} (h : charRank c = charRank d) :
    (String.utf8EncodeChar c).map byteRank = (String.utf8EncodeChar d).map byteRank := by
  rcases Nat.lt_or_ge c.toNat 128 with hc | hc <;> rcases Nat.lt_or_ge d.toNat 128 with hd | hd
  · rw [map_byteRank_of_lt hc, map_byteRank_of_lt hd, h]
  · have hle := charRank_le hc
    rw [h, charRank_of_le hd] at hle
    omega
  · have hle := charRank_le hd
    rw [← h, charRank_of_le hc] at hle
    omega
  · rw [charRank_of_le hc, charRank_of_le hd] at h
    obtain rfl : c = d := Char.toNat_inj.1 (by omega)
    rfl

/-- The bytes of two characters are placed as the characters are. -/
theorem lessInside_byteRank {c d : Char} (h : charRank c < charRank d) :
    LessInside ((String.utf8EncodeChar c).map byteRank)
      ((String.utf8EncodeChar d).map byteRank) := by
  rcases Nat.lt_or_ge c.toNat 128 with hc | hc <;> rcases Nat.lt_or_ge d.toNat 128 with hd | hd
  · rw [map_byteRank_of_lt hc, map_byteRank_of_lt hd]
    exact .here (Nat.compare_eq_lt.2 h)
  · obtain ⟨byte, bytes, hbytes⟩ := List.exists_cons_of_ne_nil (@String.utf8EncodeChar_ne_nil d)
    have hbyte : 128 ≤ byte.toNat := le_of_mem_utf8EncodeChar hd (hbytes ▸ List.mem_cons_self)
    have hle := charRank_le hc
    rw [map_byteRank_of_lt hc, hbytes, List.map_cons, byteRank_of_le hbyte]
    exact .here (Nat.compare_eq_lt.2 (by omega))
  · have hle := charRank_le hd
    rw [charRank_of_le hc] at h
    omega
  · rw [charRank_of_le hc, charRank_of_le hd] at h
    refine (lessInside_utf8EncodeChar (by omega)).map ?_
    intro x hx y hy hlt
    rw [byteRank_of_le (le_of_mem_utf8EncodeChar hc hx),
      byteRank_of_le (le_of_mem_utf8EncodeChar hd hy)]
    rw [Std.compare_eq_lt, UInt8.lt_iff_toNat_lt] at hlt
    exact Nat.compare_eq_lt.2 (by omega)

/-- The order by characters is the order by bytes. -/
theorem compare_eq_compareBytes (a b : String) :
    compare a b = compareBytes (utf8Bytes a) (utf8Bytes b) := by
  have hplaces : Ord.compare ((utf8Bytes a).map byteRank) ((utf8Bytes b).map byteRank) =
      Ord.compare (rankKey a) (rankKey b) := by
    rw [utf8Bytes_eq, utf8Bytes_eq, List.map_flatMap, List.map_flatMap]
    refine compare_flatMap ?_ (fun _ _ => map_byteRank_eq) (fun _ _ => lessInside_byteRank) _ _
    intro c
    exact List.map_eq_nil_iff.not.2 (@String.utf8EncodeChar_ne_nil c)
  have hbytes : Ord.compare (utf8Bytes a) (utf8Bytes b) =
      Ord.compare (codePoints a) (codePoints b) := by
    rw [utf8Bytes_eq, utf8Bytes_eq]
    refine compare_flatMap @String.utf8EncodeChar_ne_nil ?_ (fun _ _ => lessInside_utf8EncodeChar) _ _
    intro c d h
    rw [Char.toNat_inj.1 h]
  rw [compare, compareBytes, hplaces, hbytes]

/-! ### The canonical form -/

/-- A text that begins with `<` comes before every other text that is not empty. -/
theorem compare_placeholder {a b : String} (ha : a.startsWith "<" = true) (hb : b ≠ "")
    (hplain : b.startsWith "<" = false) : compare a b = .lt := by
  obtain ⟨cs, hcs⟩ := String.startsWith_string_iff.1 ha
  obtain ⟨d, ds, hds⟩ := List.exists_cons_of_ne_nil (String.toList_eq_nil_iff.not.2 hb)
  have hd : d ≠ '<' := by
    rintro rfl
    rw [← Bool.not_eq_true, String.startsWith_string_iff, hds] at hplain
    exact hplain ⟨ds, rfl⟩
  have hless : charRank '<' < charRank d := by
    have hfirst : charRank '<' = 0 := rfl
    rw [hfirst, charRank, if_neg hd]
    omega
  have hkey : Ord.compare (rankKey a) (rankKey b) = .lt := by
    have hfirst : a.toList = '<' :: cs := hcs.symm
    rw [rankKey, rankKey, hfirst, hds, List.map_cons, List.map_cons, List.compare_cons_cons,
      Nat.compare_eq_lt.2 hless, Ordering.lt_then]
  rw [compare, hkey, Ordering.lt_then]

/-- Ranked lists are equal exactly if the lists have the same entries. -/
theorem rank_eq_rank_iff {texts texts' : List String} :
    rank texts = rank texts' ↔ ∀ text, text ∈ texts ↔ text ∈ texts' := by
  constructor
  · intro h text
    rw [← mem_rank, h, mem_rank]
  · exact rank_congr

theorem rank_rank (texts : List String) : rank (rank texts) = rank texts :=
  rank_eq_rank_iff.2 fun _ => mem_rank

/-- The order on suggestions is the one by bytes; it is total, tells any two texts apart and puts
placeholders first.  Ranking a list gives its entries in strictly increasing order, which is the same
for any two lists with the same entries, and does not change when ranked again. -/
theorem rank_canonical :
    (∀ a b, compare a b = compareBytes (utf8Bytes a) (utf8Bytes b)) ∧
    (∀ a b, compare a b = .eq ↔ a = b) ∧
    (∀ a b, compare b a = (compare a b).swap) ∧
    (∀ a b c, (compare a b).isLE = true → (compare b c).isLE = true → (compare a c).isLE = true) ∧
    (∀ a b : String, a.startsWith "<" = true → b ≠ "" → b.startsWith "<" = false →
      compare a b = .lt) ∧
    (∀ texts, (rank texts).Pairwise (fun a b => compare a b = .lt) ∧
      (∀ text, text ∈ rank texts ↔ text ∈ texts) ∧
      (∀ texts', rank texts' = rank texts ↔ ∀ text, text ∈ texts' ↔ text ∈ texts) ∧
      rank (rank texts) = rank texts) := by
  refine ⟨compare_eq_compareBytes, fun a b => Std.LawfulEqCmp.compare_eq_iff_eq,
    fun a b => Std.OrientedCmp.eq_swap, fun a b c => Std.TransCmp.isLE_trans,
    fun a b => compare_placeholder, fun texts => ⟨pairwise_sortedUnique texts, ?_, ?_, ?_⟩⟩
  · intro text
    exact mem_rank
  · intro texts'
    exact rank_eq_rank_iff
  · exact rank_rank texts

/-- Placeholders come first, and upper case directly before the same word in lower case. -/
theorem rank_canonical_switch :
    compare "<side>" "On" = .lt ∧ (compare "<side>" "on").isLE = true ∧
      rank ["on", "<side>", "On", "on"] = rank ["On", "on", "<side>"] := by
  obtain ⟨-, -, -, htrans, hfirst, hrank⟩ := rank_canonical
  have hplaceholder : compare "<side>" "On" = .lt :=
    hfirst "<side>" "On" (by decide +kernel) (by decide) (by decide +kernel)
  refine ⟨hplaceholder, htrans _ "On" _ (by rw [hplaceholder]; rfl) (by decide +kernel), ?_⟩
  refine ((hrank _).2.2.1 _).2 ?_
  intro text
  simp only [List.mem_cons, List.not_mem_nil]
  tauto

end Ranking

end Typeahead
