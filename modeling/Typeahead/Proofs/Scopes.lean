/-
The type under which the parts of a sequence are grown.

A part that changes the current type does so for the parts to its right.  A pass asks whether a part
is such a change before it grows the part, so a load that this very pass turns into a change of type
is overlooked: the parts to its right are grown under the type that was current to the left of it.
Their unfolding is not repeated, so what a part comes to under the wrong type stays.

Main definitions:

* `Typeahead.Outline.nearestScope` — the type of the nearest change of type to the left;
* `Typeahead.Language.VisitsUnder` — the parts that a pass visits are grown under given types.

Main results:

* `Typeahead.Language.exists_growth_of_visited` — a part is grown under the type of the nearest
  change of type that was there before the pass;
* `Typeahead.Language.visitsUnder_iff` — growing under other types is the same exactly if every part
  visited comes to the same;
* `Typeahead.Language.grow_sequence_visitsUnder` — the parts are grown under the types that the pass
  leaves to their left exactly if the loads it has just turned make no difference to them;
* `Typeahead.Language.not_visitsUnder_moverCommand` — they may make one.
-/

import Typeahead.Outline.Offers
import Typeahead.Proofs.Growth

set_option relaxedAutoImplicit false
set_option autoImplicit false

namespace Typeahead

namespace Outline

/-! ### The nearest change of type -/

/-- The type that becomes current at the node, if the node changes the current type. -/
def scope? : Outline → Option (Option TypeId)
  | .scope _ type => some type
  | .blank _ | .word _ _ | .deferred _ _ | .sequence _ _ _ | .choice _ _ => none

/-- The type of the nearest change of type among the parts to the left, or the current type if none
of them is one. -/
def nearestScope (current : Option TypeId) (left : List Outline) : Option TypeId :=
  (left.reverse.findSome? scope?).getD current

theorem scopeAt_eq (current : Option TypeId) (part : Outline) :
    part.scopeAt current = part.scope?.getD current := by
  cases part <;> rfl

theorem nearestScope_cons (current : Option TypeId) (part : Outline) (left : List Outline) :
    nearestScope current (part :: left) = nearestScope (part.scopeAt current) left := by
  rw [nearestScope, nearestScope, List.reverse_cons, List.findSome?_append, scopeAt_eq]
  cases left.reverse.findSome? scope? with
  | none => simp
  | some type => rfl

end Outline

namespace Language

open Outline

variable {language : Language} {query : Query} {limit : Int}

/-! ### What a pass does to the parts it visits -/

/-- A change of type is the same under every type. -/
theorem grow_scopeAt (scope : Option TypeId) (index : Int) (part : Outline) :
    language.grow query limit (part.scopeAt scope) index part =
      language.grow query limit scope index part := by
  cases part with
  | scope mark type => rw [grow, grow]
  | blank | word | deferred | sequence | choice => rfl

/-- A part that is not put off is a change of type after a pass exactly if it was one before. -/
theorem grow_scope? {scope : Option TypeId} {index : Int} {part : Outline} {growth : Growth}
    (h : language.grow query limit scope index part = some growth)
    (hpart : part.isDeferred = false) : growth.node.scope? = part.scope? := by
  cases part with
  | deferred mark part => cases hpart
  | blank mark | word mark w | scope mark type =>
      cases h
      rfl
  | sequence mark info parts =>
      rw [grow] at h
      split at h
      · cases h
        rfl
      · obtain ⟨grown, -, rfl⟩ := Option.map_eq_some_iff.1 h
        obtain ⟨mark', hclose⟩ := closeSequence_eq mark info grown.parts grown.complete limit
        simp only [hclose, scope?]
  | choice mark branches =>
      rw [grow] at h
      split at h
      · cases h
        rfl
      · obtain ⟨grown, -, rfl⟩ := Option.map_eq_some_iff.1 h
        obtain ⟨mark', hclose⟩ := closeChoice_eq mark (grown.map Growth.node)
        simp only [hclose, scope?]

/-- A pass over the parts of a sequence keeps each change of type, and makes new ones of parts that
are put off only. -/
theorem growParts_scope? {scope : Option TypeId} {index : Int} {parts : List Outline}
    {grown : PartsGrowth} (h : language.growParts query limit scope index parts = some grown) :
    List.Forall₂ (fun part node => part.isDeferred = false → part.scope? = node.scope?)
      parts grown.parts := by
  induction parts generalizing scope index grown with
  | nil =>
      cases h
      exact .nil
  | cons part parts ih =>
      rw [growParts] at h
      split at h
      · cases h
        exact List.forall₂_same.2 fun _ _ _ => rfl
      · obtain ⟨head, hhead, h⟩ := Option.bind_eq_some_iff.1 h
        obtain ⟨rest, hrest, rfl⟩ := Option.map_eq_some_iff.1 h
        exact .cons (fun hpart => (grow_scope? hhead hpart).symm) (ih hrest)

/-- A part that a pass visits is grown under the type of the nearest change of type that was to its
left before the pass. -/
theorem exists_growth_of_visited {scope : Option TypeId} {index : Int} {parts : List Outline}
    {grown before : PartsGrowth} {i : Nat} {part : Outline}
    (h : language.growParts query limit scope index parts = some grown)
    (hpart : parts[i]? = some part)
    (hbefore : language.growParts query limit scope index (parts.take i) = some before)
    (hlimit : before.index < limit) :
    ∃ growth, language.grow query limit (nearestScope scope (parts.take i)) before.index part =
      some growth ∧ grown.parts[i]? = some growth.node := by
  induction parts generalizing scope index grown before i with
  | nil => cases hpart
  | cons first parts ih =>
      rw [growParts] at h
      cases i with
      | zero =>
          cases hpart
          cases hbefore
          rw [if_neg (not_le.2 hlimit)] at h
          obtain ⟨head, hhead, h⟩ := Option.bind_eq_some_iff.1 h
          obtain ⟨rest, -, rfl⟩ := Option.map_eq_some_iff.1 h
          rw [grow_scopeAt] at hhead
          exact ⟨head, hhead, rfl⟩
      | succ i =>
          rw [List.take_succ_cons, growParts] at hbefore
          split at h
          · -- the pass stops before the first part, and so does the pass over fewer parts
            next hstop =>
              rw [if_pos hstop] at hbefore
              cases hbefore
              exact absurd hstop (not_le.2 hlimit)
          · next hstop =>
              rw [if_neg hstop] at hbefore
              obtain ⟨head, hhead, h⟩ := Option.bind_eq_some_iff.1 h
              obtain ⟨rest, hrest, rfl⟩ := Option.map_eq_some_iff.1 h
              rw [hhead, Option.bind_some] at hbefore
              obtain ⟨restBefore, hrestBefore, rfl⟩ := Option.map_eq_some_iff.1 hbefore
              rw [List.take_succ_cons, nearestScope_cons]
              have hvisited := ih hrest hpart hrestBefore hlimit
              exact hvisited

/-! ### Types for the parts that are visited -/

/-- Every part that a pass over `parts` visits becomes, in `after`, what growing it under its type
comes to.  A part is visited if the parts to its left end before the limit, and it is grown from
there on. -/
def VisitsUnder (language : Language) (query : Query) (limit : Int) (scope : Option TypeId)
    (index : Int) (parts after : List Outline) (type : Nat → Option TypeId) : Prop :=
  ∀ i part before, parts[i]? = some part →
    language.growParts query limit scope index (parts.take i) = some before →
    before.index < limit →
    ∃ growth, language.grow query limit (type i) before.index part = some growth ∧
      after[i]? = some growth.node

/-- If the parts are grown under some types, then they are grown under others as well exactly if
every part visited comes to the same under both. -/
theorem visitsUnder_iff {scope : Option TypeId} {index : Int} {parts after : List Outline}
    {type type' : Nat → Option TypeId}
    (h : language.VisitsUnder query limit scope index parts after type) :
    language.VisitsUnder query limit scope index parts after type' ↔
      ∀ i part before, parts[i]? = some part →
        language.growParts query limit scope index (parts.take i) = some before →
        before.index < limit →
        (language.grow query limit (type' i) before.index part).map Growth.node =
          (language.grow query limit (type i) before.index part).map Growth.node := by
  constructor
  · intro h' i part before hpart hbefore hlimit
    obtain ⟨growth, hgrowth, hnode⟩ := h i part before hpart hbefore hlimit
    obtain ⟨growth', hgrowth', hnode'⟩ := h' i part before hpart hbefore hlimit
    rw [hgrowth, hgrowth', Option.map_some, Option.map_some, ← hnode, hnode']
  · intro hsame i part before hpart hbefore hlimit
    obtain ⟨growth, hgrowth, hnode⟩ := h i part before hpart hbefore hlimit
    have heq := hsame i part before hpart hbefore hlimit
    rw [hgrowth, Option.map_some] at heq
    obtain ⟨growth', hgrowth', hnode'⟩ := Option.map_eq_some_iff.1 heq
    exact ⟨growth', hgrowth', by rw [hnode', hnode]⟩

/-- Two lists whose changes of type are at the same places, up to parts that are put off. -/
theorem exists_deferred_of_nearestScope_ne {parts after : List Outline} {current : Option TypeId}
    (h : List.Forall₂ (fun part node => part.isDeferred = false → part.scope? = node.scope?)
      parts after) {i : Nat}
    (hne : nearestScope current (after.take i) ≠ nearestScope current (parts.take i)) :
    ∃ j mark part mark' type, j < i ∧ parts[j]? = some (.deferred mark part) ∧
      after[j]? = some (.scope mark' type) := by
  induction h generalizing i current with
  | nil => simp at hne
  | @cons part node parts after hpart _ ih =>
      cases i with
      | zero => simp at hne
      | succ i =>
          rw [List.take_succ_cons, List.take_succ_cons, nearestScope_cons, nearestScope_cons] at hne
          by_cases hsame : part.scope? = node.scope?
          · rw [scopeAt_eq, scopeAt_eq, hsame] at hne
            obtain ⟨j, mark, deferred, mark', type, hj, hbefore, hafter⟩ := ih hne
            exact ⟨j + 1, mark, deferred, mark', type, by omega, hbefore, hafter⟩
          · -- this is the part that the pass has turned into a change of type
            cases part with
            | deferred mark deferred =>
                cases node with
                | scope mark' type => exact ⟨0, mark, deferred, mark', type, by omega, rfl, rfl⟩
                | blank | word | deferred | sequence | choice => exact absurd rfl hsame
            | blank | word | sequence | choice | scope => exact absurd (hpart rfl) hsame

/-- One pass over a sequence.  Every part that the pass visits is grown under the type of the nearest
change of type that was to its left before the pass.  It is grown under the type of the nearest one
that the pass has left there, a load just turned into one included, exactly if every part visited
comes to the same under both; and the two types differ only to the right of a put off part that the
pass has turned into a change of type. -/
theorem grow_sequence_visitsUnder {scope : Option TypeId} {index : Int} {mark : Mark}
    {info : SequenceInfo} {parts : List Outline} {growth : Growth} (hmark : mark.complete = false)
    (h : language.grow query limit scope index (.sequence mark info parts) = some growth) :
    language.VisitsUnder query limit scope index parts growth.node.children
        (fun i => nearestScope scope (parts.take i)) ∧
      (language.VisitsUnder query limit scope index parts growth.node.children
          (fun i => nearestScope scope (growth.node.children.take i)) ↔
        ∀ i part before, parts[i]? = some part →
          language.growParts query limit scope index (parts.take i) = some before →
          before.index < limit →
          (language.grow query limit (nearestScope scope (growth.node.children.take i)) before.index
              part).map Growth.node =
            (language.grow query limit (nearestScope scope (parts.take i)) before.index part).map
              Growth.node) ∧
      ∀ i, nearestScope scope (growth.node.children.take i) ≠ nearestScope scope (parts.take i) →
        ∃ j mark part mark' type, j < i ∧ parts[j]? = some (.deferred mark part) ∧
          growth.node.children[j]? = some (.scope mark' type) := by
  rw [grow, if_neg (by simp [hmark])] at h
  obtain ⟨grown, hgrown, rfl⟩ := Option.map_eq_some_iff.1 h
  obtain ⟨mark', hclose⟩ := closeSequence_eq mark info grown.parts grown.complete limit
  simp only [hclose, children]
  have hvisits : language.VisitsUnder query limit scope index parts grown.parts
      (fun i => nearestScope scope (parts.take i)) := by
    intro i part before hpart hbefore hlimit
    exact exists_growth_of_visited hgrown hpart hbefore hlimit
  refine ⟨hvisits, visitsUnder_iff hvisits, ?_⟩
  intro i hne
  exact exists_deferred_of_nearestScope_ne (growParts_scope? hgrown) hne

/-! ### A load that is overlooked -/

/-- A language in which a platform understands `altitude` and its mover `speed`. -/
def moverLanguage : Language where
  grammar :=
    { rules := #[⟨.leaf (.literal "speed"), none⟩, ⟨.leaf (.literal "altitude"), none⟩,
        ⟨.typeLoad ⟨.load, ["mover"], true, none⟩, none⟩, ⟨.typeCommand, none⟩] }
  types :=
    ((((({} : TypeTable).add "platform" none).add "mover" none).addSymbol ⟨2⟩ "mover" ⟨3⟩).setRule ⟨2⟩
      ⟨1⟩).setRule ⟨3⟩ ⟨0⟩

/-- The command `edit`, which goes on with the commands of the mover. -/
def moverCommand : List Outline :=
  [.ofWord (.literal "edit"), .ofRule ⟨2⟩ none, .ofRule ⟨3⟩ none]

/-- The query behind `edit` and a blank. -/
def moverQuery : Query := ⟨["edit", ""], 1, .suggest⟩

theorem exists_grow_moverCommand :
    ∃ growth, moverLanguage.grow moverQuery 2 (some ⟨2⟩) 0 (.sequence {} {} moverCommand) =
      some growth := by
  have hsome : (moverLanguage.grow moverQuery 2 (some ⟨2⟩) 0
      (.sequence {} {} moverCommand)).isSome = true := by decide +kernel
  exact Option.isSome_iff_exists.1 hsome

/-- Behind `edit` the load is turned into a change of type to the mover, but the commands that follow
are those of the platform. -/
theorem not_visitsUnder_moverCommand :
    ∃ growth, moverLanguage.grow moverQuery 2 (some ⟨2⟩) 0 (.sequence {} {} moverCommand) =
        some growth ∧
      ¬ moverLanguage.VisitsUnder moverQuery 2 (some ⟨2⟩) 0 moverCommand growth.node.children
        (fun i => nearestScope (some ⟨2⟩) (growth.node.children.take i)) := by
  obtain ⟨growth, hgrowth⟩ := exists_grow_moverCommand
  refine ⟨growth, hgrowth, ?_⟩
  intro hvisits
  -- what the last part is grown under, and what it comes to
  have hscope : (moverLanguage.grow moverQuery 2 (some ⟨2⟩) 0 (.sequence {} {} moverCommand)).map
      (fun growth => nearestScope (some ⟨2⟩) (growth.node.children.take 2)) =
        some (some ⟨3⟩) := by decide +kernel
  have hnode : (moverLanguage.grow moverQuery 2 (some ⟨2⟩) 0 (.sequence {} {} moverCommand)).map
      (fun growth => growth.node.children[2]?.map fun node =>
        (node.offers moverLanguage.grammar 0).texts) = some (some ["altitude"]) := by decide +kernel
  have hbefore : (moverLanguage.growParts moverQuery 2 (some ⟨2⟩) 0 (moverCommand.take 2)).map
      PartsGrowth.index = some 1 := by decide +kernel
  have hmover : (moverLanguage.grow moverQuery 2 (some ⟨3⟩) 1 (.ofRule ⟨3⟩ none)).map
      (fun growth => (growth.node.offers moverLanguage.grammar 0).texts) = some ["speed"] := by
    decide +kernel
  rw [hgrowth, Option.map_some, Option.some.injEq] at hscope hnode
  obtain ⟨before, hbefore, hindex⟩ := Option.map_eq_some_iff.1 hbefore
  obtain ⟨grown, hgrown, hchild⟩ := hvisits 2 (.ofRule ⟨3⟩ none) before rfl hbefore (by omega)
  simp only [hscope, hindex] at hgrown
  rw [hgrown, Option.map_some, Option.some.injEq] at hmover
  rw [hchild, Option.map_some, Option.some.injEq, hmover] at hnode
  revert hnode
  decide

/-- A pass over a command whose load was turned in an earlier pass. -/
theorem visitsUnder_moverCommand :
    ∃ growth, moverLanguage.grow moverQuery 2 (some ⟨2⟩) 0
        (.sequence {} {} [.ofWord (.literal "edit"), .scope { wordCount := 0, complete := true }
          (some ⟨3⟩), .ofRule ⟨3⟩ none]) = some growth ∧
      moverLanguage.VisitsUnder moverQuery 2 (some ⟨2⟩) 0
        [.ofWord (.literal "edit"), .scope { wordCount := 0, complete := true } (some ⟨3⟩),
          .ofRule ⟨3⟩ none] growth.node.children
        (fun i => nearestScope (some ⟨2⟩) (growth.node.children.take i)) := by
  have hsome : (moverLanguage.grow moverQuery 2 (some ⟨2⟩) 0
      (.sequence {} {} [.ofWord (.literal "edit"), .scope { wordCount := 0, complete := true }
        (some ⟨3⟩), .ofRule ⟨3⟩ none])).isSome = true := by decide +kernel
  obtain ⟨growth, hgrowth⟩ := Option.isSome_iff_exists.1 hsome
  obtain ⟨-, hiff, hturned⟩ := grow_sequence_visitsUnder rfl hgrowth
  refine ⟨growth, hgrowth, hiff.2 ?_⟩
  intro i part before hpart hbefore hlimit
  -- the last part is the only one that is put off, and nothing stands to its right
  by_cases hne : nearestScope (some ⟨2⟩) (growth.node.children.take i) =
      nearestScope (some ⟨2⟩) (List.take i [.ofWord (.literal "edit"),
        .scope { wordCount := 0, complete := true } (some ⟨3⟩), .ofRule ⟨3⟩ none])
  · rw [hne]
  · obtain ⟨j, mark, deferred, mark', type, hj, hdeferred, -⟩ := hturned i hne
    have hi := (List.getElem?_eq_some_iff.1 hpart).1
    simp only [List.length_cons, List.length_nil] at hi
    obtain rfl | rfl : j = 0 ∨ j = 1 := by omega
    · cases hdeferred
    · cases hdeferred

end Language

end Typeahead
