/-
The order in which suggestions are shown.

Placeholders come first, because `<` counts as the least character; then letters are ordered
without regard to case, and two texts that differ in case only are ordered by their characters.

Main definitions:

* `Typeahead.Ranking.compare` — the order on suggestions;
* `Typeahead.Ranking.rank` — a list of suggestions in that order, each one once;
* `Typeahead.inOrder` — a list of names in plain character order, each one once.
-/

set_option relaxedAutoImplicit false
set_option autoImplicit false

namespace Typeahead

/-- The code points of a text; their order is the plain order of texts. -/
def codePoints (text : String) : List Nat := text.toList.map Char.toNat

theorem codePoints_injective {a b : String} (h : codePoints a = codePoints b) : a = b := by
  refine String.toList_inj.1 ?_
  exact (List.map_inj_right fun c d hcd => Char.toNat_inj.1 hcd).1 h

/-- Sorts by `cmp` and drops an entry that repeats the one before it. -/
def sortedUnique {α : Type} [BEq α] (cmp : α → α → Ordering) (xs : List α) : List α :=
  (xs.mergeSort fun a b => (cmp a b).isLE).eraseReps

/-- Names in plain character order, each one once. -/
def inOrder (names : List String) : List String :=
  sortedUnique (fun a b => compare (codePoints a) (codePoints b)) names

namespace Ranking

/-- The place of a character: `<` first, and upper case letters with their lower case. -/
def charRank (c : Char) : Nat := if c = '<' then 0 else 1 + c.toLower.toNat

/-- The places of the characters of a text. -/
def rankKey (text : String) : List Nat := text.toList.map charRank

/-- The order on suggestions: by place first, and by plain character order among texts of equal
places. -/
def compare (a b : String) : Ordering :=
  (Ord.compare (rankKey a) (rankKey b)).then (Ord.compare (codePoints a) (codePoints b))

/-- The suggestions in order, each one once. -/
def rank (suggestions : List String) : List String := sortedUnique compare suggestions

end Ranking

end Typeahead
