/-
Where the parts of an outline come from.

A part of an outline names rules of the grammar: the rule it is put off for, the sequence rule it was
unfolded from, and the slot of the sequence rule it stands in.  The slot is how a part is tied to its
grammar position, whatever becomes of it: the load that gives a word its type and the keyword that
closes a block are looked up by it.  A grammar that was finished names no rule outside its table.  No
step takes a part out of its sequence or moves it to another slot, so in every outline that growing
and pruning lead to, the rules named are in the table and the parts of a sequence stand in the slots
of its rule, one for each child.

Main definitions:

* `Typeahead.RuleKind.Holds` — a rule of this kind names another rule;
* `Typeahead.Grammar.LaidOut` — the parts stand in the slots of a sequence rule;
* `Typeahead.Outline.Placed` — the rules and the slot that a node names are those of the grammar;
* `Typeahead.Outline.KeepsPlace` — a step leaves a node in its slot, and leaves it placed.

Main results:

* `Typeahead.Outline.KeepsPlace.sequence`, `Typeahead.Outline.KeepsPlace.choice` — steps in the parts
  of a node are a step of the node;
* `Typeahead.Outline.retain_keepsPlace`, `Typeahead.Language.unfoldWithin_keepsPlace`,
  `Typeahead.Language.grow_keepsPlace` — pruning, unfolding and growing are such steps;
* `Typeahead.Language.finish_evolved_placed` — finishing succeeds exactly if no rule outside the
  table is named, and then every outline is placed in the grammar.
-/

import Typeahead.Grammar.Draft
import Typeahead.Proofs.CompleteNodes

set_option relaxedAutoImplicit false
set_option autoImplicit false

namespace Typeahead

/-! ### Rules that are named -/

/-- A rule of the kind names the rule `target`. -/
inductive RuleKind.Holds (target : RuleId) : RuleKind → Prop
  | child {children : List RuleId} {singleToken isError : Bool} : target ∈ children →
      Holds target (.sequence children singleToken isError)
  | branch {branches : List RuleId} : target ∈ branches → Holds target (.choice branches)
  | body {endKeyword : String} : Holds target (.block (some target) endKeyword)
  | wrapped {wrapping : Wrapping} : Holds target (.wrapper wrapping (some target))

theorem RuleKind.holds_iff {target : RuleId} {kind : RuleKind} :
    kind.Holds target ↔ target ∈ kind.references := by
  constructor
  · rintro (h | h | _ | _)
    · exact h
    · exact h
    · exact List.mem_singleton_self _
    · exact List.mem_singleton_self _
  · intro h
    cases kind with
    | sequence children singleToken isError => exact .child h
    | choice branches => exact .branch h
    | block body endKeyword =>
        obtain rfl := Option.mem_toList.1 h
        exact .body
    | wrapper wrapping inner =>
        obtain rfl := Option.mem_toList.1 h
        exact .wrapped
    | leaf | freeWord | typeLoad | typeCommand | unknown => cases h

/-- Finishing a draft succeeds exactly if its rules and the root name rules of the table only. -/
theorem Draft.exists_finish_iff (draft : Draft) (root : RuleId) :
    (∃ grammar, draft.finish root = .ok grammar) ↔
      root.index < draft.rules.size ∧ ∀ rule ∈ draft.rules, ∀ target,
        rule.kind.Holds target → target.index < draft.rules.size := by
  simp only [finish_eq_ok_iff, exists_eq_left, RuleKind.holds_iff]
  refine and_congr_right fun _ => ?_
  constructor
  · intro h rule hmem
    obtain ⟨i, hi⟩ := Array.getElem?_of_mem hmem
    exact h ⟨i⟩ rule hi
  · intro h id rule hrule
    exact h rule (Array.mem_of_getElem? hrule)

namespace Grammar

/-- The table has a rule at the place. -/
def Has (grammar : Grammar) (id : RuleId) : Prop := id.index < grammar.rules.size

/-- The slot is the place of a child of a sequence rule. -/
structure HasSlot (grammar : Grammar) (slot : Slot) : Prop where
  has : grammar.Has slot.sequence
  child : ∃ children singleToken isError,
    grammar.kind? slot.sequence = some (.sequence children singleToken isError) ∧
    slot.index < children.length

/-- The parts stand in the slots of the sequence rule at a place, one for each child. -/
structure LaidOut (grammar : Grammar) (id : RuleId) (parts : List Outline) : Prop where
  has : grammar.Has id
  length : ∃ children singleToken isError,
    grammar.kind? id = some (.sequence children singleToken isError) ∧
    parts.length = children.length
  slots : ∀ (i : Nat) (part : Outline), parts[i]? = some part → part.mark.slot = some ⟨id, i⟩

variable {grammar : Grammar}

/-- Of the parts, only the slots matter. -/
theorem LaidOut.congr {id : RuleId} {parts parts' : List Outline} (h : grammar.LaidOut id parts)
    (hslots : parts'.map (·.mark.slot) = parts.map (·.mark.slot)) :
    grammar.LaidOut id parts' where
  has := h.has
  length := by
    obtain ⟨children, singleToken, isError, hkind, hlength⟩ := h.length
    refine ⟨children, singleToken, isError, hkind, ?_⟩
    rw [← hlength]
    simpa using congrArg List.length hslots
  slots i part' hpart := by
    have hslot := congrArg (·[i]?) hslots
    simp only [List.getElem?_map, hpart, Option.map_some] at hslot
    obtain ⟨part, hpart, hslot⟩ := Option.map_eq_some_iff.1 hslot.symm
    rw [← hslot]
    exact h.slots i part hpart

end Grammar

/-- The slot of the mark is one of the grammar. -/
def Mark.Placed (grammar : Grammar) (mark : Mark) : Prop :=
  ∀ slot, mark.slot = some slot → grammar.HasSlot slot

theorem Mark.Placed.congr {grammar : Grammar} {mark mark' : Mark} (h : mark.Placed grammar)
    (hslot : mark'.slot = mark.slot) : mark'.Placed grammar :=
  fun slot hmark => h slot (hslot ▸ hmark)

namespace Outline

/-- The rules and the slot that a node names are those of the grammar. -/
def Placed (grammar : Grammar) : Outline → Prop
  | .deferred mark part => mark.Placed grammar ∧ ∀ id, part.rule = some id → grammar.Has id
  | .sequence mark info parts =>
      mark.Placed grammar ∧ ∀ id, info.rule = some id → grammar.LaidOut id parts
  | .blank mark | .word mark _ | .choice mark _ | .scope mark _ => mark.Placed grammar

variable {grammar : Grammar} {query : Query}

theorem Placed.mark {node : Outline} (h : node.Placed grammar) : node.mark.Placed grammar := by
  cases node with
  | deferred | sequence => exact h.1
  | blank | word | choice | scope => exact h

theorem blank_placed : (Outline.blank {}).Placed grammar := by
  intro slot hslot
  cases hslot

theorem placed_ofWord (w : Word) : (ofWord w).Placed grammar := by
  intro slot hslot
  cases hslot

/-! ### Steps -/

/-- A step from `before` to `after` leaves the node in its slot, and leaves it placed. -/
structure KeepsPlace (grammar : Grammar) (before after : Outline) : Prop where
  slot : after.mark.slot = before.mark.slot
  placed : before.Everywhere (Placed grammar) → after.Everywhere (Placed grammar)

theorem KeepsPlace.refl (outline : Outline) : KeepsPlace grammar outline outline where
  slot := rfl
  placed h := h

theorem KeepsPlace.trans {first second third : Outline} (h : KeepsPlace grammar first second)
    (h' : KeepsPlace grammar second third) : KeepsPlace grammar first third where
  slot := h'.slot.trans h.slot
  placed hfirst := h'.placed (h.placed hfirst)

/-- A node that is rebuilt in its slot. -/
theorem KeepsPlace.rebuilt {before after : Outline} (hslot : after.mark.slot = before.mark.slot)
    (hafter : after.mark.Placed grammar → after.Everywhere (Placed grammar)) :
    KeepsPlace grammar before after where
  slot := hslot
  placed h := hafter (h.self.mark.congr hslot)

theorem map_slot_of_keepsPlace {parts parts' : List Outline}
    (h : List.Forall₂ (KeepsPlace grammar) parts parts') :
    parts'.map (·.mark.slot) = parts.map (·.mark.slot) := by
  induction h with
  | nil => rfl
  | cons hpart _ ih => simp only [List.map_cons, hpart.slot, ih]

theorem allEverywhere_of_keepsPlace {parts parts' : List Outline}
    (h : List.Forall₂ (KeepsPlace grammar) parts parts')
    (hparts : AllEverywhere (Placed grammar) parts) : AllEverywhere (Placed grammar) parts' := by
  apply allEverywhere_iff.2
  intro part' hmem
  obtain ⟨part, hpart, hkeeps⟩ := exists_left_of_forall₂ h part' hmem
  exact hkeeps.placed (allEverywhere_iff.1 hparts part hpart)

/-- Steps in the parts of a sequence are a step of the sequence. -/
theorem KeepsPlace.sequence {mark mark' : Mark} {info : SequenceInfo}
    {parts parts' : List Outline} (hslot : mark'.slot = mark.slot)
    (h : List.Forall₂ (KeepsPlace grammar) parts parts') :
    KeepsPlace grammar (.sequence mark info parts) (.sequence mark' info parts') where
  slot := hslot
  placed hbefore := by
    obtain ⟨⟨hmark, hlaid⟩, hparts⟩ := hbefore
    refine ⟨⟨hmark.congr hslot, ?_⟩, allEverywhere_of_keepsPlace h hparts⟩
    exact fun id hid => (hlaid id hid).congr (map_slot_of_keepsPlace h)

/-- Steps in branches, some of which may go, are a step of the choice. -/
theorem KeepsPlace.choice {mark mark' : Mark} {branches branches' : List Outline}
    (hslot : mark'.slot = mark.slot)
    (h : ∀ branch' ∈ branches', ∃ branch ∈ branches, KeepsPlace grammar branch branch') :
    KeepsPlace grammar (.choice mark branches) (.choice mark' branches') where
  slot := hslot
  placed hbefore := by
    refine ⟨hbefore.1.congr hslot, allEverywhere_iff.2 ?_⟩
    intro branch' hmem
    obtain ⟨branch, hbranch, hkeeps⟩ := h branch' hmem
    exact hkeeps.placed (allEverywhere_iff.1 hbefore.2 branch hbranch)

/-! ### Pruning -/

theorem retainParts_keepsPlace {parts : List Outline}
    (ih : ∀ part ∈ parts, ∀ index, KeepsPlace grammar part (part.retain query index).value)
    (index : Nat) :
    List.Forall₂ (KeepsPlace grammar) parts (retainParts query index parts).value := by
  induction parts generalizing index with
  | nil => exact .nil
  | cons part parts ihparts =>
      have hpart := ih part (List.mem_cons_self ..) index
      have hsame : List.Forall₂ (KeepsPlace grammar) parts parts :=
        List.forall₂_same.2 fun other _ => .refl other
      rw [retainParts]
      simp only
      split
      · exact .cons hpart hsame
      · split
        · exact .cons hpart hsame
        · exact .cons hpart
            (ihparts (fun other hother => ih other (List.mem_cons_of_mem _ hother)) _)

/-- Pruning takes no part out of its sequence. -/
theorem retain_keepsPlace (outline : Outline) (index : Nat) :
    KeepsPlace grammar outline (outline.retain query index).value := by
  induction outline generalizing index with
  | blank | word | deferred | scope => exact .refl _
  | sequence mark info parts ih =>
      rw [retain]
      split
      · exact .refl _
      · exact .sequence rfl (retainParts_keepsPlace ih index)
  | choice mark branches ih =>
      rw [retain]
      split
      · exact .refl _
      · refine .choice rfl fun kept hmem => ?_
        obtain ⟨branch, hbranch, -, rfl⟩ := mem_retainBranches.1 hmem
        exact ⟨branch, hbranch, ih branch hbranch index⟩

/-! ### Filling nodes -/

theorem fill_keepsPlace (node : Outline) (w : Word) : KeepsPlace grammar node (node.fill w) :=
  .rebuilt rfl fun h => h

theorem refer_keepsPlace {id : RuleId} (hid : grammar.Has id) (node : Outline)
    (reference : SymbolRef) : KeepsPlace grammar node (node.refer (some id) reference) := by
  refine .rebuilt rfl fun h => ⟨h, ?_⟩
  rintro _ ⟨⟩
  exact hid

theorem showPlaceholder_keepsPlace (placeholder : String) (node : Outline) :
    KeepsPlace grammar node (node.showPlaceholder placeholder) := by
  cases node with
  | deferred mark part =>
      rw [showPlaceholder]
      split
      · exact ⟨rfl, fun h => h⟩
      · exact fill_keepsPlace _ _
  | blank | word | sequence | choice | scope => exact fill_keepsPlace _ _

theorem fillFree_keepsPlace {id : RuleId} (hid : grammar.Has id) (free : FreeWord)
    (node : Outline) : KeepsPlace grammar node (node.fillFree grammar id free) := by
  have hload : ∀ node : Outline, KeepsPlace grammar node (node.tagByLoad grammar id) := by
    intro node
    rw [tagByLoad]
    split
    · exact refer_keepsPlace hid _ _
    · exact .refl _
  have hkind : ∀ node : Outline, KeepsPlace grammar node (node.tagByKind free id) := by
    intro node
    rw [tagByKind]
    split
    · exact refer_keepsPlace hid _ _
    · exact .refl _
  have hname : ∀ node : Outline, KeepsPlace grammar node (node.tagByName free id) := by
    intro node
    rw [tagByName]
    split
    · exact refer_keepsPlace hid _ _
    · exact .refl _
  exact (((hload node).trans (hkind _)).trans (hname _)).trans (showPlaceholder_keepsPlace _ _)

end Outline

/-! ### Unfolding and growing -/

/-- No rule of the table names one outside it. -/
def Grammar.Closed (grammar : Grammar) : Prop :=
  ∀ id kind, grammar.kind? id = some kind → ∀ target ∈ kind.references, grammar.Has target

namespace Language

open Outline

variable {language : Language} {query : Query} {scope : Option TypeId} {blocks : List RuleId}
  {limit : Int}

theorem deferRest_eq_ofRule {id : RuleId} {children : List RuleId} {i : Nat} {part : Outline}
    (h : (deferRest id children)[i]? = some part) :
    ∃ child, children[i]? = some child ∧ part = .ofRule child (some ⟨id, i + 1⟩) := by
  simp only [deferRest, List.getElem?_map, List.getElem?_zipIdx, Option.map_map,
    Option.map_eq_some_iff, Function.comp_apply] at h
  obtain ⟨child, hchild, rfl⟩ := h
  exact ⟨child, hchild, by rw [Nat.add_comm]⟩

/-- The parts of a sequence that was unfolded just now. -/
theorem laidOut_unfolded {grammar : Grammar} {id first : RuleId} {rest : List RuleId}
    {singleToken isError : Bool} {head : Outline}
    (hkind : grammar.kind? id = some (.sequence (first :: rest) singleToken isError))
    (hhead : head.mark.slot = some ⟨id, 0⟩) :
    grammar.LaidOut id (head :: deferRest id rest) where
  has := Grammar.index_lt_of_kind hkind
  length := ⟨_, _, _, hkind, by simp [deferRest]⟩
  slots i part hpart := by
    cases i with
    | zero =>
        cases hpart
        exact hhead
    | succ i =>
        obtain ⟨child, -, rfl⟩ := deferRest_eq_ofRule hpart
        rfl

theorem deferRest_placed {grammar : Grammar} (hg : grammar.Closed) {id first : RuleId}
    {rest : List RuleId} {singleToken isError : Bool}
    (hkind : grammar.kind? id = some (.sequence (first :: rest) singleToken isError)) :
    AllEverywhere (Placed grammar) (deferRest id rest) := by
  apply allEverywhere_iff.2
  intro part hmem
  obtain ⟨i, hpart⟩ := List.getElem?_of_mem hmem
  obtain ⟨child, hchild, rfl⟩ := deferRest_eq_ofRule hpart
  obtain ⟨hi, rfl⟩ := List.getElem?_eq_some_iff.1 hchild
  constructor
  · rintro _ ⟨⟩
    exact ⟨Grammar.index_lt_of_kind hkind, _, _, _, hkind, by simpa using hi⟩
  · rintro _ ⟨⟩
    exact hg id _ hkind _ (List.mem_cons_of_mem _ (List.getElem_mem hi))

/-- Unfolding a rule into a node names rules of the table only. -/
theorem unfoldWithin_keepsPlace (hg : language.grammar.Closed) {fuel : Nat} {openBlock : Bool}
    {rule : Option RuleId} {node : Outline} {unfolded : Unfolded}
    (h : language.unfoldWithin fuel scope openBlock rule node = some unfolded) :
    KeepsPlace language.grammar node unfolded.node := by
  induction fuel generalizing openBlock rule node unfolded with
  | zero => cases h
  | succ fuel ih =>
      cases rule with
      | none =>
          cases h
          exact .refl _
      | some id =>
          -- one case for each kind of rule, in the order of the definition
          rw [unfoldWithin] at h
          split at h
          · cases h
            exact .refl _
          · cases h
            exact fill_keepsPlace _ _
          · next hkind =>
              cases h
              exact fillFree_keepsPlace (Grammar.index_lt_of_kind hkind) _ _
          · next hkind =>
              split at h
              · cases h
                exact .refl _
              · split at h
                · cases h
                  refine .rebuilt rfl fun h => ⟨⟨h, ?_⟩, trivial⟩
                  rintro _ ⟨⟩
                  exact ⟨Grammar.index_lt_of_kind hkind, ⟨_, _, _, hkind, rfl⟩, by simp⟩
                · obtain ⟨head, hhead, rfl⟩ := Option.map_eq_some_iff.1 h
                  have hfirst := ih hhead
                  refine .rebuilt rfl fun h => ⟨⟨h, ?_⟩, ?_, deferRest_placed hg hkind⟩
                  · rintro _ ⟨⟩
                    exact laidOut_unfolded hkind hfirst.slot
                  · refine hfirst.placed fun slot hslot => ?_
                    cases hslot
                    exact ⟨Grammar.index_lt_of_kind hkind, _, _, _, hkind, Nat.succ_pos _⟩
          · obtain ⟨branches, hbranches, rfl⟩ := Option.map_eq_some_iff.1 h
            refine .rebuilt rfl fun h => ⟨h, allEverywhere_iff.2 ?_⟩
            intro branch hmem
            obtain ⟨unfolded, hunfolded, rfl⟩ := List.mem_map.1 hmem
            obtain ⟨child, -, hchild⟩ := exists_left_of_forall₂ (mapM_eq_some_iff.1 hbranches)
              unfolded hunfolded
            exact (ih hchild).placed blank_placed
          · split at h
            · exact ih h
            · cases h
              refine .rebuilt rfl fun h => ⟨⟨h, ?_⟩, placed_ofWord .block, trivial⟩
              rintro _ ⟨⟩
          · exact ih h
          · split at h
            · split at h
              · cases h
                exact .rebuilt rfl fun h => h
              · cases h
                exact .refl _
            · cases h
              exact .refl _
          · split at h
            · split at h
              · obtain ⟨inner, hinner, rfl⟩ := Option.map_eq_some_iff.1 h
                have hkeeps : KeepsPlace language.grammar node inner.node := ih hinner
                exact hkeeps
              · cases h
                exact .refl _
            · cases h
              exact .refl _
          · cases h
            exact .refl _

theorem growDeferred_keepsPlace (hg : language.grammar.Closed) {index : Int} {mark : Mark}
    {part : Deferred} {unfolded : Unfolded}
    (h : language.growDeferred query scope index mark part = some unfolded) :
    KeepsPlace language.grammar (.deferred mark part) unfolded.node := by
  rw [growDeferred] at h
  split at h
  · split at h
    · cases h
      cases href : part.reference with
      | none =>
          simp only [listNames, href]
          exact .refl _
      | some reference =>
          simp only [listNames, href]
          refine .rebuilt rfl fun h => ⟨h, placed_ofWord (.pattern part.placeholder), ?_⟩
          apply allEverywhere_iff.2
          intro branch hmem
          obtain ⟨name, -, rfl⟩ := List.mem_map.1 hmem
          exact placed_ofWord (.literal name)
    · cases h
      exact .rebuilt rfl fun h => h
  · exact unfoldWithin_keepsPlace hg h

theorem growParts_keepsPlace {parts : List Outline}
    (ih : ∀ part ∈ parts, ∀ scope index growth,
      language.grow query limit scope index part = some growth →
      KeepsPlace language.grammar part growth.node)
    {index : Int} {grown : PartsGrowth}
    (h : language.growParts query limit scope index parts = some grown) :
    List.Forall₂ (KeepsPlace language.grammar) parts grown.parts := by
  induction parts generalizing scope index grown with
  | nil =>
      cases h
      exact .nil
  | cons part parts ihparts =>
      rw [growParts] at h
      split at h
      · cases h
        exact List.forall₂_same.2 fun other _ => .refl other
      · obtain ⟨head, hhead, h⟩ := Option.bind_eq_some_iff.1 h
        obtain ⟨rest, hrest, rfl⟩ := Option.map_eq_some_iff.1 h
        exact .cons (ih part (List.mem_cons_self ..) _ _ head hhead)
          (ihparts (fun other hother => ih other (List.mem_cons_of_mem _ hother)) hrest)

theorem growBranches_keepsPlace {branches : List Outline}
    (ih : ∀ branch ∈ branches, ∀ scope index growth,
      language.grow query limit scope index branch = some growth →
      KeepsPlace language.grammar branch growth.node)
    {index : Int} {grown : List Growth}
    (h : language.growBranches query limit scope index branches = some grown) :
    List.Forall₂ (KeepsPlace language.grammar) branches (grown.map Growth.node) := by
  induction branches generalizing grown with
  | nil =>
      cases h
      exact .nil
  | cons branch branches ihbranches =>
      obtain ⟨head, hhead, h⟩ := Option.bind_eq_some_iff.1 h
      obtain ⟨rest, hrest, rfl⟩ := Option.map_eq_some_iff.1 h
      exact .cons (ih branch (List.mem_cons_self ..) _ _ head hhead)
        (ihbranches (fun other hother => ih other (List.mem_cons_of_mem _ hother)) hrest)

theorem closeSequence_keepsPlace {grammar : Grammar} {parts parts' : List Outline}
    (h : List.Forall₂ (KeepsPlace grammar) parts parts') (mark : Mark) (info : SequenceInfo)
    (complete : Bool) (limit : Int) :
    KeepsPlace grammar (.sequence mark info parts)
      (closeSequence mark info parts' complete limit) := by
  simp only [closeSequence]
  split
  · exact .sequence rfl h
  · exact .sequence rfl h

theorem closeChoice_keepsPlace {grammar : Grammar} {branches branches' : List Outline}
    (h : List.Forall₂ (KeepsPlace grammar) branches branches') (mark : Mark) :
    KeepsPlace grammar (.choice mark branches) (closeChoice mark branches') := by
  rw [closeChoice]
  split
  · exact .choice rfl (exists_left_of_forall₂ h)
  · exact .choice rfl (exists_left_of_forall₂ h)

/-- A pass leaves every part in its slot, and names rules of the table only. -/
theorem grow_keepsPlace (hg : language.grammar.Closed) (outline : Outline)
    (scope : Option TypeId) (index : Int) (growth : Growth)
    (h : language.grow query limit scope index outline = some growth) :
    KeepsPlace language.grammar outline growth.node := by
  induction outline generalizing scope index growth with
  | blank mark | word mark w | scope mark type =>
      cases h
      exact .refl _
  | deferred mark part =>
      rw [grow] at h
      split at h
      · cases h
        exact .refl _
      · obtain ⟨unfolded, hunfolded, rfl⟩ := Option.map_eq_some_iff.1 h
        exact growDeferred_keepsPlace hg hunfolded
  | sequence mark info parts ih =>
      rw [grow] at h
      split at h
      · cases h
        exact .refl _
      · obtain ⟨grown, hgrown, rfl⟩ := Option.map_eq_some_iff.1 h
        exact closeSequence_keepsPlace (growParts_keepsPlace ih hgrown) mark info _ _
  | choice mark branches ih =>
      rw [grow] at h
      split at h
      · cases h
        exact .refl _
      · obtain ⟨grown, hgrown, rfl⟩ := Option.map_eq_some_iff.1 h
        exact closeChoice_keepsPlace (growBranches_keepsPlace ih hgrown) mark

/-! ### Whole runs -/

theorem seeding_placed {grammar : Grammar} : Seeding query (Placed grammar) where
  word _ := placed_ofWord _
  choice _ := blank_placed
  append _ _ _ h := h
  retain _ h index := (retain_keepsPlace _ index).placed h

/-- However an outline was grown and pruned, it is placed in the grammar throughout. -/
theorem Evolved.placed (hg : language.grammar.Closed) {outline : Outline}
    (h : language.Evolved query scope blocks limit outline) :
    outline.Everywhere (Placed language.grammar) := by
  induction h with
  | seed hseed =>
      refine seed_everywhere seeding_placed (fun block unfolded hunfolded => ?_) hseed
      exact (unfoldWithin_keepsPlace hg hunfolded).placed blank_placed
  | grow current index _ hgrowth ih => exact (grow_keepsPlace hg _ current index _ hgrowth).placed ih
  | prune index _ ih => exact (retain_keepsPlace _ index).placed ih

/-- Finishing a draft succeeds exactly if its rules and the root name rules of the table only.  Then
every outline that growing and pruning lead to is placed in the grammar throughout: all rules that it
names are in the table, and the parts of a sequence stand in the slots of its rule, one for each
child.  A type or a block that names a missing rule makes no difference, as nothing is unfolded
there. -/
theorem finish_evolved_placed (draft : Draft) (root : RuleId) :
    ((∃ grammar, draft.finish root = .ok grammar) ↔
      root.index < draft.rules.size ∧ ∀ rule ∈ draft.rules, ∀ target,
        rule.kind.Holds target → target.index < draft.rules.size) ∧
    ∀ (language : Language) (query : Query) (scope : Option TypeId) (blocks : List RuleId)
      (limit : Int) (outline : Outline), draft.finish root = .ok language.grammar →
      language.Evolved query scope blocks limit outline →
      outline.Everywhere (Placed language.grammar) := by
  refine ⟨draft.exists_finish_iff root, ?_⟩
  intro language query scope blocks limit outline hfinish h
  refine h.placed fun id kind hkind target htarget => ?_
  obtain ⟨hgrammar, -, hall⟩ := (Draft.finish_eq_ok_iff ..).1 hfinish
  rw [hgrammar] at hkind ⊢
  obtain ⟨rule, hrule, rfl⟩ := Option.map_eq_some_iff.1 hkind
  exact hall id rule hrule target htarget

/-- The command `mover` with a name and a block of speeds. -/
def moverDraft : Draft where
  rules := #[⟨.leaf (.literal "mover"), none⟩, ⟨.freeWord { kind := "name" }, none⟩,
    ⟨.leaf (.literal "speed"), none⟩, ⟨.block (some ⟨2⟩) "end_mover", none⟩,
    ⟨.sequence [⟨0⟩, ⟨1⟩, ⟨3⟩] false false, none⟩]

/-- With `mover` typed, the first pass unfolds the name and leaves the block put off; each of the
three parts is in its slot. -/
theorem finish_evolved_placed_moverDraft :
    ∃ (language : Language) (outline : Outline), moverDraft.finish ⟨4⟩ = .ok language.grammar ∧
      language.Evolved ⟨["mover", ""], 1, .suggest⟩ none [] 2 outline ∧
      (outline.children.map fun node => node.children.map (·.mark.slot)) =
        [[some ⟨⟨4⟩, 0⟩, some ⟨⟨4⟩, 1⟩, some ⟨⟨4⟩, 2⟩]] ∧
      outline.Everywhere (Placed language.grammar) := by
  let language : Language := { grammar := { rules := moverDraft.rules, root := some ⟨4⟩ } }
  have hfinish : moverDraft.finish ⟨4⟩ = .ok language.grammar := rfl
  have hrun : ((language.seed ⟨["mover", ""], 1, .suggest⟩ none []).bind fun outline =>
      (language.grow ⟨["mover", ""], 1, .suggest⟩ 2 none 0 outline).map fun growth =>
        (growth.node.retain ⟨["mover", ""], 1, .suggest⟩ 0).value.children.map fun node =>
          node.children.map (·.mark.slot)) =
      some [[some ⟨⟨4⟩, 0⟩, some ⟨⟨4⟩, 1⟩, some ⟨⟨4⟩, 2⟩]] := by decide +kernel
  obtain ⟨outline, hseed, hrun⟩ := Option.bind_eq_some_iff.1 hrun
  obtain ⟨growth, hgrowth, hrun⟩ := Option.map_eq_some_iff.1 hrun
  have hevolved := ((Evolved.seed hseed).grow none 0 hgrowth).prune 0
  exact ⟨language, _, hfinish, hevolved, hrun,
    (finish_evolved_placed moverDraft ⟨4⟩).2 language _ none [] 2 _ hfinish hevolved⟩

end Language

end Typeahead
