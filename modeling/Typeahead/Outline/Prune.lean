/-
Pruning: dropping the branches that contradict the typed words.

A word that the query does not accept at its place rules out the sequence it stands in, and a
choice is ruled out with its last branch.  Patterns, parts that are put off and everything beyond
the typed words stay.

Main definitions:

* `Typeahead.Outline.retain` — the node with the ruled out branches dropped, and whether the node
  itself stays;
* `Typeahead.Outline.prune` — the pruned node, if it stays.
-/

import Typeahead.Outline.Basic
import Typeahead.Query.Basic

set_option relaxedAutoImplicit false
set_option autoImplicit false

namespace Typeahead

/-- A node or a list of nodes after pruning, and whether it stays. -/
structure Retained (α : Type) where
  value : α
  stays : Bool
  deriving Repr

namespace Outline

mutual

/-- Prunes a node that starts at place `index`. -/
def retain (query : Query) : Nat → Outline → Retained Outline
  | index, .blank mark => ⟨.blank mark, decide (query.words.length ≤ index)⟩
  | index, .word mark w => ⟨.word mark w, w.isPattern || query.accepts w.text index⟩
  | _, .deferred mark part => ⟨.deferred mark part, true⟩
  | _, .scope mark type => ⟨.scope mark type, true⟩
  | index, .choice mark branches =>
      if query.words.length ≤ index then ⟨.choice mark branches, true⟩
      else
        let kept := retainBranches query index branches
        ⟨.choice mark kept, !kept.isEmpty⟩
  | index, .sequence mark info parts =>
      if query.words.length ≤ index then ⟨.sequence mark info parts, true⟩
      else
        let kept := retainParts query index parts
        ⟨.sequence mark info kept.value, kept.stays⟩

/-- The branches that stay. -/
def retainBranches (query : Query) : Nat → List Outline → List Outline
  | _, [] => []
  | index, branch :: branches =>
      let kept := retain query index branch
      if kept.stays then kept.value :: retainBranches query index branches
      else retainBranches query index branches

/-- Prunes the parts one after another, each at the place where the one before it ends, up to the
first that is ruled out or whose end is unknown. -/
def retainParts (query : Query) : Nat → List Outline → Retained (List Outline)
  | _, [] => ⟨[], true⟩
  | index, part :: parts =>
      let kept := retain query index part
      if !kept.stays then ⟨kept.value :: parts, false⟩
      else if kept.value.count < 0 then ⟨kept.value :: parts, true⟩
      else
        let rest := retainParts query (index + kept.value.count.toNat) parts
        ⟨kept.value :: rest.value, rest.stays⟩

end

/-- The pruned node, if it stays. -/
def prune (query : Query) (index : Nat) (outline : Outline) : Option Outline :=
  let kept := outline.retain query index
  if kept.stays then some kept.value else none

end Outline

end Typeahead
