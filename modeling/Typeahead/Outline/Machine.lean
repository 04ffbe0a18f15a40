/-
Pruning with the numbers of a machine.

A machine adds counts of 32 bits with a sign and places of 64 bits without.  A sum that does not fit
wraps around, or stops the program where sums are checked.  So pruning is written here for any way
to add, in the order in which a machine adds, and nothing comes of it if it is stopped.

Main definitions:

* `Typeahead.Arithmetic` — a way to add counts and places;
* `Typeahead.Arithmetic.wrapping`, `Typeahead.Arithmetic.checking` — the ways of a machine;
* `Typeahead.Outline.countOn` — the number of words of a node;
* `Typeahead.Outline.retainOn` — the node with the ruled out branches dropped;
* `Typeahead.Outline.pruneSlot` — the same for a slot, which is emptied if the node is ruled out.
-/

import Typeahead.Outline.Prune

set_option relaxedAutoImplicit false
set_option autoImplicit false

namespace Typeahead

/-- A way to add counts, and to add a count to a place.  There is no sum where the program stops. -/
structure Arithmetic where
  addCounts : Int → Int → Option Int
  addPlaces : Nat → Nat → Option Nat

namespace Arithmetic

/-- Sums without a bound. -/
def exact : Arithmetic where
  addCounts count other := some (count + other)
  addPlaces place count := some (place + count)

/-- Sums that wrap around. -/
def wrapping : Arithmetic where
  addCounts count other := some ((count + other).bmod (Nat.pow 2 32))
  addPlaces place count := some ((place + count) % (greatestWord + 1))

/-- Sums that stop the program if they do not fit. -/
def checking : Arithmetic where
  addCounts count other :=
    if -Int.pow 2 31 ≤ count + other ∧ count + other < Int.pow 2 31 then some (count + other)
    else none
  addPlaces place count := if place + count ≤ greatestWord then some (place + count) else none

end Arithmetic

namespace Outline

/-! ### Word counts -/

mutual

/-- The number of words a node takes up, as `Outline.count`. -/
def countOn (arithmetic : Arithmetic) : Outline → Option Int
  | word mark _ => some (if mark.complete then mark.wordCount else 1)
  | sequence mark _ parts =>
      if mark.complete then some mark.wordCount else sumCountsOn arithmetic 0 parts
  | choice mark branches =>
      if mark.complete then some mark.wordCount else maxCountsOn arithmetic 0 branches
  | blank mark | deferred mark _ | scope mark _ =>
      some (if mark.complete then mark.wordCount else unknownCount)

/-- Adds the counts to `sum` one after another, up to the first one that is unknown. -/
def sumCountsOn (arithmetic : Arithmetic) : Int → List Outline → Option Int
  | sum, [] => some sum
  | sum, part :: parts =>
      (part.countOn arithmetic).bind fun count =>
        if count < 0 then some count
        else (arithmetic.addCounts sum count).bind fun sum => sumCountsOn arithmetic sum parts

/-- The greatest of the counts and of `greatest`, or the first count that is unknown. -/
def maxCountsOn (arithmetic : Arithmetic) : Int → List Outline → Option Int
  | greatest, [] => some greatest
  | greatest, branch :: branches =>
      (branch.countOn arithmetic).bind fun count =>
        if count < 0 then some count else maxCountsOn arithmetic (max greatest count) branches

end

/-! ### Pruning -/

mutual

/-- Prunes a node that starts at place `index`, as `Outline.retain`. -/
def retainOn (arithmetic : Arithmetic) (query : Query) : Nat → Outline → Option (Retained Outline)
  | index, .blank mark => some ⟨.blank mark, decide (query.words.length ≤ index)⟩
  | index, .word mark w => some ⟨.word mark w, w.isPattern || query.accepts w.text index⟩
  | _, .deferred mark part => some ⟨.deferred mark part, true⟩
  | _, .scope mark type => some ⟨.scope mark type, true⟩
  | index, .choice mark branches =>
      if query.words.length ≤ index then some ⟨.choice mark branches, true⟩
      else
        (retainBranchesOn arithmetic query index branches).map fun kept =>
          ⟨.choice mark kept, !kept.isEmpty⟩
  | index, .sequence mark info parts =>
      if query.words.length ≤ index then some ⟨.sequence mark info parts, true⟩
      else
        (retainPartsOn arithmetic query index parts).map fun kept =>
          ⟨.sequence mark info kept.value, kept.stays⟩

/-- The branches that stay. -/
def retainBranchesOn (arithmetic : Arithmetic) (query : Query) :
    Nat → List Outline → Option (List Outline)
  | _, [] => some []
  | index, branch :: branches =>
      (branch.retainOn arithmetic query index).bind fun kept =>
        (retainBranchesOn arithmetic query index branches).map fun rest =>
          if kept.stays then kept.value :: rest else rest

/-- Prunes the parts one after another, each at the place where the one before it ends. -/
def retainPartsOn (arithmetic : Arithmetic) (query : Query) :
    Nat → List Outline → Option (Retained (List Outline))
  | _, [] => some ⟨[], true⟩
  | index, part :: parts =>
      (part.retainOn arithmetic query index).bind fun kept =>
        if !kept.stays then some ⟨kept.value :: parts, false⟩
        else
          (kept.value.countOn arithmetic).bind fun count =>
            if count < 0 then some ⟨kept.value :: parts, true⟩
            else
              (arithmetic.addPlaces index count.toNat).bind fun next =>
                (retainPartsOn arithmetic query next parts).map fun rest =>
                  ⟨kept.value :: rest.value, rest.stays⟩

end

/-- Prunes the node in a slot, and empties the slot if the node is ruled out. -/
def pruneSlot (arithmetic : Arithmetic) (query : Query) (index : Nat) :
    Option Outline → Option (Option Outline)
  | none => some none
  | some outline =>
      (outline.retainOn arithmetic query index).map fun kept =>
        if kept.stays then some kept.value else none

end Outline

end Typeahead
