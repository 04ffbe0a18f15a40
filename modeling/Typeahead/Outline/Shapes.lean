/-
Reading hints off an outline.

The shapes of a sequence are those of its parts joined, and the shapes of a choice are those of
its branches one after another; a branch with the same shapes as the one before it adds nothing.
A sequence that shows as a single placeholder does so everywhere but at the start of the command.

Main definitions:

* `Typeahead.Outline.shapes` — the hints of an outline.
-/

import Typeahead.Outline.Basic

set_option relaxedAutoImplicit false
set_option autoImplicit false

namespace Typeahead

/-- The single placeholder of a sequence, if it shows as one. -/
def SequenceInfo.placeholder? (info : SequenceInfo) : Option String :=
  if info.rule.isSome && info.singleToken && !info.name.isEmpty then
    some ("<" ++ info.name ++ ">")
  else none

namespace Outline

mutual

/-- The shapes of a node.  `first` says that the node starts the command, and `cap` is the number
of combinations beyond which joined shapes are merged. -/
def shapes (cap : Nat) : Bool → Outline → List Hint
  | _, .word _ w => [[w.text]]
  | first, .choice _ branches => branchShapes cap first none branches
  | first, .sequence _ info parts =>
      match first, info.placeholder? with
      | false, some placeholder => [[placeholder]]
      | _, _ => partShapes cap first [] parts
  | _, .blank _ | _, .deferred _ _ | _, .scope _ _ => []

/-- The shapes of the branches, given those of the branch before. -/
def branchShapes (cap : Nat) : Bool → Option (List Hint) → List Outline → List Hint
  | _, _, [] => []
  | first, previous, branch :: branches =>
      let own := shapes cap first branch
      (if previous = some own then [] else own) ++ branchShapes cap first (some own) branches

/-- The shapes of the parts joined to those of the parts before. -/
def partShapes (cap : Nat) : Bool → List Hint → List Outline → List Hint
  | _, joined, [] => joined
  | first, joined, part :: parts =>
      partShapes cap false (Hint.join cap joined (shapes cap first part)) parts

end

end Outline

end Typeahead
