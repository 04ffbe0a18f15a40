/-
Reading suggestions off an outline.

The words at the place of the query are offered.  On the way there the walk counts down the words
still to pass; a word met right after that place means that more is to be typed.

Main definitions:

* `Typeahead.Offers` — the texts offered, and whether more words follow them;
* `Typeahead.Grammar.closing?` — the keyword that closes the block a command opens;
* `Typeahead.Outline.offers` — the suggestions of an outline.
-/

import Typeahead.Outline.Basic

set_option relaxedAutoImplicit false
set_option autoImplicit false

namespace Typeahead

/-- The texts offered, and whether more words may follow them. -/
structure Offers where
  texts : List String := []
  more : Bool := false
  deriving DecidableEq, Repr

/-- The offers of two parts of an outline together. -/
def Offers.append (left right : Offers) : Offers :=
  ⟨left.texts ++ right.texts, left.more || right.more⟩

/-- A node at the head of a sequence rule opens a block if one of the last two of at least three
parts is a block with an end keyword: the keyword closes it. -/
def Grammar.closing? (grammar : Grammar) (slot : Option Slot) : Option String :=
  match slot with
  | none => none
  | some slot =>
      match slot.index, grammar.kind? slot.sequence with
      | 0, some (.sequence children _ _) =>
          if children.length < 3 then none
          else
            (children.drop (children.length - 2)).findSome? fun child =>
              (grammar.endKeyword? child).filter fun keyword => !keyword.isEmpty
      | _, _ => none

/-- Where no rule is a block, no node opens one. -/
theorem Grammar.closing?_eq_none {grammar : Grammar} (h : ∀ id, grammar.endKeyword? id = none)
    (slot : Option Slot) : grammar.closing? slot = none := by
  cases slot with
  | none => rfl
  | some slot =>
      simp only [closing?, h, Option.filter_none]
      split
      · split <;> simp
      · rfl

/-- The text offered for a word: a fixed word that starts with `<` gets a backslash, so that it
does not read as a pattern. -/
def Word.rendered (word : Word) : String :=
  if word.text.startsWith "<" && !word.isPattern then "\\" ++ word.text else word.text

/-- The text offered for a word that may open a block. -/
def Word.offered (word : Word) (closing : Option String) : String :=
  match closing with
  | some keyword => word.rendered ++ blockText ++ keyword
  | none => word.rendered

namespace Outline

/-- The number of words still to pass once the place of the query is passed. -/
def pastQuery : Int := -1

mutual

/-- The suggestions of a node with `remaining` words to pass before the place of the query. -/
def offers (grammar : Grammar) : Int → Outline → Offers
  | remaining, .word mark w =>
      if remaining = pastQuery then { more := !w.isBlock }
      else if remaining = 0 ∧ w.isBlock = false ∧ w.text.isEmpty = false then
        { texts := [w.offered (grammar.closing? mark.slot)] }
      else {}
  | remaining, .choice _ branches =>
      if remaining = pastQuery then { more := true }
      else branchOffers grammar remaining branches
  | remaining, .sequence _ _ parts =>
      if remaining = pastQuery then { more := true }
      else partOffers grammar remaining parts
  | remaining, .blank _ | remaining, .deferred _ _ | remaining, .scope _ _ =>
      { more := decide (remaining = pastQuery) }

/-- The suggestions of all branches. -/
def branchOffers (grammar : Grammar) : Int → List Outline → Offers
  | _, [] => {}
  | remaining, branch :: branches =>
      (offers grammar remaining branch).append (branchOffers grammar remaining branches)

/-- The suggestions of the parts, each with the words of the one before it passed. -/
def partOffers (grammar : Grammar) : Int → List Outline → Offers
  | _, [] => {}
  | remaining, part :: parts =>
      (offers grammar remaining part).append
        (partOffers grammar (remaining - part.count) parts)

end

end Outline

end Typeahead
