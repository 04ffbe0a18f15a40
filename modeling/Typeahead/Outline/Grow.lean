/-
Growing an outline by one level.

One pass over an outline unfolds every rule that is put off and can be reached below a given place
of the command.  Parts of a sequence are visited from left to right, each at the place where the
one before it ends; a part that changes the current type does so for the parts after it.  All
branches of a choice start at the same place, and if they end at different places the end of the
choice is unknown.

Main definitions:

* `Typeahead.Language.listNames` — lists the names of a reference that is put off;
* `Typeahead.Language.grow` — one pass.
-/

import Typeahead.Outline.Unfold
import Typeahead.Query.Basic

set_option relaxedAutoImplicit false
set_option autoImplicit false

namespace Typeahead

/-- A node after a pass, the place where it ends, and whether the pass unfolded anything. -/
structure Growth where
  node : Outline
  index : Int
  grew : Bool
  deriving Repr

/-- The parts of a sequence after a pass.  `complete` says that all parts visited are. -/
structure PartsGrowth where
  parts : List Outline
  index : Int
  grew : Bool
  complete : Bool
  deriving Repr

/-- The end of a complete node. -/
def Mark.endIndex (mark : Mark) (index : Int) : Int :=
  if mark.wordCount < 0 then mark.wordCount else advance index mark.wordCount

/-- The place where all branches end, if they agree on one. -/
def agreedIndex (start : Int) : List Int → Int
  | [] => start
  | index :: rest => if rest.all (· == index) then index else unknownCount

/-- Marks a sequence as complete if its parts are and there are not more of them than words to
look at. -/
def Outline.closeSequence (mark : Mark) (info : SequenceInfo) (parts : List Outline)
    (complete : Bool) (limit : Int) : Outline :=
  let total := Outline.sumCounts parts
  if complete && decide ((parts.length : Int) ≤ limit) && decide (0 ≤ total) then
    .sequence (mark.settle total) info parts
  else .sequence mark info parts

/-- Marks a choice as complete if all its branches are. -/
def Outline.closeChoice (mark : Mark) (branches : List Outline) : Outline :=
  if branches.all (fun branch => branch.mark.complete) then
    .choice (mark.settle (Outline.maxCounts branches)) branches
  else .choice mark branches

/-- The type that is current from a part on. -/
def Outline.scopeAt (current : Option TypeId) : Outline → Option TypeId
  | .scope _ type => type
  | _ => current

namespace Language

/-- Puts a choice in place of a reference: its placeholder, and then the names it may stand for.
Any other node is left alone. -/
def listNames (language : Language) (scope : Option TypeId) : Outline → Outline
  | .deferred mark part =>
      match part.reference with
      | some reference =>
          .choice mark (.ofWord (.pattern part.placeholder) ::
            (language.candidates scope reference).map fun name => .ofWord (.literal name))
      | none => .deferred mark part
  | node => node

/-- Unfolds a part that is put off.  The names of a reference are listed at the active word only;
anywhere else its placeholder will do. -/
def growDeferred (language : Language) (query : Query) (scope : Option TypeId) (index : Int)
    (mark : Mark) (part : Deferred) : Option Unfolded :=
  if part.reference.isSome then
    if query.listsNamesAt index then some ⟨language.listNames scope (.deferred mark part), true⟩
    else some ⟨.word mark (.pattern part.placeholder), false⟩
  else language.unfold scope false part.rule (.deferred mark part)

mutual

/-- One pass over a node that starts at place `index`.  A complete node is left alone. -/
def grow (language : Language) (query : Query) (limit : Int) :
    Option TypeId → Int → Outline → Option Growth
  | _, index, .blank mark =>
      some ⟨.blank mark, if mark.complete then mark.endIndex index else unknownCount, false⟩
  | _, index, .scope mark type =>
      some ⟨.scope mark type, if mark.complete then mark.endIndex index else unknownCount, false⟩
  | _, index, .word mark word =>
      some ⟨.word mark word, if mark.complete then mark.endIndex index else advance index 1, false⟩
  | scope, index, .deferred mark part =>
      if mark.complete then some ⟨.deferred mark part, mark.endIndex index, false⟩
      else
        (language.growDeferred query scope index mark part).map fun unfolded =>
          ⟨unfolded.node, advance index unfolded.node.count, unfolded.grew⟩
  | scope, index, .sequence mark info parts =>
      if mark.complete then some ⟨.sequence mark info parts, mark.endIndex index, false⟩
      else
        (growParts language query limit scope index parts).map fun grown =>
          ⟨.closeSequence mark info grown.parts grown.complete limit, grown.index, grown.grew⟩
  | scope, index, .choice mark branches =>
      if mark.complete then some ⟨.choice mark branches, mark.endIndex index, false⟩
      else
        (growBranches language query limit scope index branches).map fun grown =>
          ⟨.closeChoice mark (grown.map Growth.node), agreedIndex index (grown.map Growth.index),
            grown.any Growth.grew⟩

/-- One pass over the parts of a sequence, up to the first that starts at or after `limit`. -/
def growParts (language : Language) (query : Query) (limit : Int) :
    Option TypeId → Int → List Outline → Option PartsGrowth
  | _, index, [] => some ⟨[], index, false, true⟩
  | scope, index, part :: parts =>
      if limit ≤ index then some ⟨part :: parts, index, false, true⟩
      else
        (grow language query limit (part.scopeAt scope) index part).bind fun head =>
          (growParts language query limit (part.scopeAt scope) head.index parts).map fun rest =>
            ⟨head.node :: rest.parts, rest.index, head.grew || rest.grew,
              head.node.mark.complete && rest.complete⟩

/-- One pass over the branches of a choice, which all start at the same place. -/
def growBranches (language : Language) (query : Query) (limit : Int) :
    Option TypeId → Int → List Outline → Option (List Growth)
  | _, _, [] => some []
  | scope, index, branch :: branches =>
      (grow language query limit scope index branch).bind fun head =>
        (growBranches language query limit scope index branches).map fun rest => head :: rest

end

end Language

end Typeahead
