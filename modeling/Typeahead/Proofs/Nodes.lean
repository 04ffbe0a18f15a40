/-
Properties of all nodes of an outline.

A node is marked as complete together with its number of words, and from then on this number is read
instead of being computed again.  Unfolding completes words and changes of type only; growing
completes sequences and choices and leaves complete nodes alone; pruning rebuilds sequences and
choices under their old marks.  So a property of nodes that completing a node brings about is kept by
unfolding and growing, whatever the language.

Main definitions:

* `Typeahead.Outline.recount` — the number of words of a node, by its parts or branches;
* `Typeahead.Outline.Everywhere` — a property of all nodes of an outline;
* `Typeahead.Outline.Fresh` — the node is not complete, or is a leaf with the right mark;
* `Typeahead.Outline.Closing` — completing a node brings the property about.

Main results:

* `Typeahead.Language.unfoldWithin_fresh` — unfolding gives fresh nodes;
* `Typeahead.Language.grow_everywhere` — growing keeps a property that completing brings about;
* `Typeahead.Outline.retain_everywhere` — what pruning has to keep.
-/

import Typeahead.Outline.Grow
import Typeahead.Proofs.Pruning

set_option relaxedAutoImplicit false
set_option autoImplicit false

namespace Typeahead

namespace Outline

/-! ### Counts and nodes -/

/-- The number of words of a node by its parts or branches, whatever its own mark says. -/
def recount : Outline → Int
  | .word _ _ => 1
  | .scope _ _ => 0
  | .sequence _ _ parts => sumCounts parts
  | .choice _ branches => maxCounts branches
  | .blank _ | .deferred _ _ => unknownCount

mutual

/-- The property holds of all nodes of an outline. -/
def Everywhere (P : Outline → Prop) : Outline → Prop
  | .sequence mark info parts => P (.sequence mark info parts) ∧ AllEverywhere P parts
  | .choice mark branches => P (.choice mark branches) ∧ AllEverywhere P branches
  | .blank mark => P (.blank mark)
  | .word mark w => P (.word mark w)
  | .deferred mark part => P (.deferred mark part)
  | .scope mark type => P (.scope mark type)

/-- The property holds of all nodes of several outlines. -/
def AllEverywhere (P : Outline → Prop) : List Outline → Prop
  | [] => True
  | child :: children => Everywhere P child ∧ AllEverywhere P children

end

variable {P Q : Outline → Prop} {query : Query}

theorem allEverywhere_iff {children : List Outline} :
    AllEverywhere P children ↔ ∀ child ∈ children, child.Everywhere P := by
  induction children with
  | nil => simp [AllEverywhere]
  | cons child children ih => simp [AllEverywhere, ih]

theorem Everywhere.self {outline : Outline} (h : outline.Everywhere P) : P outline := by
  cases outline with
  | sequence | choice => exact h.1
  | blank | word | deferred | scope => exact h

theorem Everywhere.of_mem_children {outline child : Outline} (h : outline.Everywhere P)
    (hmem : child ∈ outline.children) : P child := by
  cases outline with
  | sequence | choice => exact (allEverywhere_iff.1 h.2 child hmem).self
  | blank | word | deferred | scope => cases hmem

theorem Everywhere.imp {outline : Outline} (h : outline.Everywhere P)
    (himp : ∀ node, P node → Q node) : outline.Everywhere Q := by
  induction outline with
  | blank | word | deferred | scope => exact himp _ h
  | sequence mark info parts ih =>
      exact ⟨himp _ h.1, allEverywhere_iff.2 fun part hmem =>
        ih part hmem (allEverywhere_iff.1 h.2 part hmem)⟩
  | choice mark branches ih =>
      exact ⟨himp _ h.1, allEverywhere_iff.2 fun branch hmem =>
        ih branch hmem (allEverywhere_iff.1 h.2 branch hmem)⟩

/-- What holds of all nodes of an outline holds of all nodes of each part of it. -/
theorem Everywhere.everywhere {outline : Outline} (h : outline.Everywhere P) :
    outline.Everywhere fun node => node.Everywhere P := by
  induction outline with
  | blank | word | deferred | scope => exact h
  | sequence mark info parts ih =>
      exact ⟨h, allEverywhere_iff.2 fun part hmem =>
        ih part hmem (allEverywhere_iff.1 h.2 part hmem)⟩
  | choice mark branches ih =>
      exact ⟨h, allEverywhere_iff.2 fun branch hmem =>
        ih branch hmem (allEverywhere_iff.1 h.2 branch hmem)⟩

/-- Whether the node is a word, or takes up none. -/
def isLeaf : Outline → Bool
  | .word _ _ | .scope _ _ => true
  | .blank _ | .deferred _ _ | .sequence _ _ _ | .choice _ _ => false

/-- If the node is complete, it has no parts and its mark gives its number of words. -/
def Fresh (node : Outline) : Prop :=
  node.mark.complete = true → node.isLeaf = true ∧ node.mark.wordCount = node.recount

/-- A property of nodes that completing a node brings about: it holds of nodes that are not
complete, of complete leaves, and of sequences and choices at the moment they are completed. -/
structure Closing (P : Outline → Prop) : Prop where
  incomplete : ∀ node : Outline, node.mark.complete = false → P node
  leaf : ∀ node : Outline, node.isLeaf = true → node.mark.wordCount = node.recount → P node
  sequence : ∀ (mark : Mark) (info : SequenceInfo) (parts : List Outline), 0 ≤ sumCounts parts →
    P (.sequence (mark.settle (sumCounts parts)) info parts)
  choice : ∀ (mark : Mark) (branches : List Outline),
    (∀ branch ∈ branches, branch.mark.complete = true ∧ P branch) →
    P (.choice (mark.settle (maxCounts branches)) branches)

theorem Closing.of_fresh (hP : Closing P) {node : Outline} (h : node.Fresh) : P node := by
  cases hcomplete : node.mark.complete with
  | false => exact hP.incomplete node hcomplete
  | true => exact hP.leaf node (h hcomplete).1 (h hcomplete).2

theorem Closing.everywhere_of_fresh (hP : Closing P) {outline : Outline}
    (h : outline.Everywhere Fresh) : outline.Everywhere P := h.imp fun _ => hP.of_fresh

/-! ### Unfolding and growing -/

theorem fresh_of_incomplete {node : Outline} (h : node.mark.complete = false) : node.Fresh := by
  intro hcomplete
  simp [h] at hcomplete

/-- A node that may still be unfolded. -/
structure IsOpen (node : Outline) : Prop where
  incomplete : node.mark.complete = false
  fresh : node.Everywhere Fresh

theorem isOpen_blank (slot : Option Slot) : (Outline.blank { slot }).IsOpen where
  incomplete := rfl
  fresh := fresh_of_incomplete rfl

theorem isOpen_deferred {mark : Mark} (h : mark.complete = false) (part : Deferred) :
    (Outline.deferred mark part).IsOpen where
  incomplete := h
  fresh := fresh_of_incomplete h

theorem fill_fresh (node : Outline) (w : Word) : (node.fill w).Everywhere Fresh :=
  fun _ => ⟨rfl, rfl⟩

theorem IsOpen.tagByLoad {node : Outline} (h : node.IsOpen) (grammar : Grammar) (rule : RuleId) :
    (node.tagByLoad grammar rule).IsOpen := by
  rw [Outline.tagByLoad]
  split
  · exact isOpen_deferred rfl _
  · exact h

theorem IsOpen.tagByKind {node : Outline} (h : node.IsOpen) (free : FreeWord) (rule : RuleId) :
    (node.tagByKind free rule).IsOpen := by
  rw [Outline.tagByKind]
  split
  · exact isOpen_deferred rfl _
  · exact h

theorem IsOpen.tagByName {node : Outline} (h : node.IsOpen) (free : FreeWord) (rule : RuleId) :
    (node.tagByName free rule).IsOpen := by
  rw [Outline.tagByName]
  split
  · exact isOpen_deferred rfl _
  · exact h

theorem IsOpen.showPlaceholder {node : Outline} (h : node.IsOpen) (placeholder : String) :
    (node.showPlaceholder placeholder).Everywhere Fresh := by
  cases node with
  | deferred mark part =>
      rw [Outline.showPlaceholder]
      split
      · exact (isOpen_deferred h.incomplete _).fresh
      · exact fill_fresh _ _
  | blank | word | sequence | choice | scope => exact fill_fresh _ _

theorem IsOpen.fillFree {node : Outline} (h : node.IsOpen) (grammar : Grammar) (rule : RuleId)
    (free : FreeWord) : (node.fillFree grammar rule free).Everywhere Fresh :=
  (((h.tagByLoad grammar rule).tagByKind free rule).tagByName free rule).showPlaceholder _

theorem IsOpen.sequence {node : Outline} (h : node.IsOpen) (info : SequenceInfo)
    {parts : List Outline} (hparts : AllEverywhere Fresh parts) :
    (Outline.sequence node.mark info parts).Everywhere Fresh :=
  ⟨fresh_of_incomplete h.incomplete, hparts⟩

theorem IsOpen.choice {node : Outline} (h : node.IsOpen) {branches : List Outline}
    (hbranches : AllEverywhere Fresh branches) :
    (Outline.choice node.mark branches).Everywhere Fresh :=
  ⟨fresh_of_incomplete h.incomplete, hbranches⟩

end Outline

namespace Language

open Outline

variable {language : Language} {query : Query} {P : Outline → Prop}

theorem deferRest_fresh (rule : RuleId) (children : List RuleId) :
    AllEverywhere Fresh (deferRest rule children) := by
  apply allEverywhere_iff.2
  intro part hmem
  obtain ⟨entry, -, rfl⟩ := List.mem_map.1 hmem
  exact (isOpen_deferred rfl _).fresh

/-- Unfolding completes words and changes of type only. -/
theorem unfoldWithin_fresh {fuel : Nat} {scope : Option TypeId} {openBlock : Bool}
    {rule : Option RuleId} {node : Outline} {unfolded : Unfolded} (hnode : node.IsOpen)
    (h : language.unfoldWithin fuel scope openBlock rule node = some unfolded) :
    unfolded.node.Everywhere Fresh := by
  induction fuel generalizing openBlock rule node unfolded with
  | zero => cases h
  | succ fuel ih =>
      cases rule with
      | none =>
          cases h
          exact hnode.fresh
      | some id =>
          -- one case for each kind of rule, in the order of the definition
          rw [unfoldWithin] at h
          split at h
          · cases h
            exact hnode.fresh
          · cases h
            exact fill_fresh _ _
          · cases h
            exact hnode.fillFree ..
          · split at h
            · cases h
              exact hnode.fresh
            · split at h
              · cases h
                exact hnode.sequence _ trivial
              · obtain ⟨head, hhead, rfl⟩ := Option.map_eq_some_iff.1 h
                exact hnode.sequence _ ⟨ih (isOpen_blank _) hhead, deferRest_fresh ..⟩
          · obtain ⟨branches, hbranches, rfl⟩ := Option.map_eq_some_iff.1 h
            refine hnode.choice (allEverywhere_iff.2 ?_)
            intro branch hmem
            obtain ⟨unfolded, hunfolded, rfl⟩ := List.mem_map.1 hmem
            obtain ⟨child, -, hchild⟩ := exists_left_of_forall₂ (mapM_eq_some_iff.1 hbranches)
              unfolded hunfolded
            exact ih (isOpen_blank _) hchild
          · split at h
            · exact ih hnode h
            · cases h
              exact hnode.sequence _ ⟨fill_fresh _ _, trivial⟩
          · exact ih hnode h
          · split at h
            · split at h
              · cases h
                exact fun _ => ⟨rfl, rfl⟩
              · cases h
                exact hnode.fresh
            · cases h
              exact hnode.fresh
          · split at h
            · split at h
              · obtain ⟨inner, hinner, rfl⟩ := Option.map_eq_some_iff.1 h
                have hfresh : inner.node.Everywhere Fresh := ih hnode hinner
                exact hfresh
              · cases h
                exact hnode.fresh
            · cases h
              exact hnode.fresh
          · cases h
            exact hnode.fresh

theorem growParts_everywhere {limit : Int} {parts : List Outline}
    (ih : ∀ part ∈ parts, part.Everywhere P → ∀ scope index growth,
      language.grow query limit scope index part = some growth → growth.node.Everywhere P)
    (hparts : AllEverywhere P parts) {scope : Option TypeId} {index : Int} {grown : PartsGrowth}
    (h : language.growParts query limit scope index parts = some grown) :
    AllEverywhere P grown.parts := by
  induction parts generalizing scope index grown with
  | nil =>
      cases h
      trivial
  | cons part parts ihparts =>
      rw [growParts] at h
      split at h
      · cases h
        exact hparts
      · obtain ⟨head, hhead, h⟩ := Option.bind_eq_some_iff.1 h
        obtain ⟨rest, hrest, rfl⟩ := Option.map_eq_some_iff.1 h
        exact ⟨ih part (List.mem_cons_self ..) hparts.1 _ _ head hhead,
          ihparts (fun other hother => ih other (List.mem_cons_of_mem _ hother)) hparts.2 hrest⟩

theorem growBranches_everywhere {limit : Int} {branches : List Outline}
    (ih : ∀ branch ∈ branches, branch.Everywhere P → ∀ scope index growth,
      language.grow query limit scope index branch = some growth → growth.node.Everywhere P)
    (hbranches : AllEverywhere P branches) {scope : Option TypeId} {index : Int}
    {grown : List Growth}
    (h : language.growBranches query limit scope index branches = some grown) :
    AllEverywhere P (grown.map Growth.node) := by
  induction branches generalizing grown with
  | nil =>
      cases h
      trivial
  | cons branch branches ihbranches =>
      obtain ⟨head, hhead, h⟩ := Option.bind_eq_some_iff.1 h
      obtain ⟨rest, hrest, rfl⟩ := Option.map_eq_some_iff.1 h
      exact ⟨ih branch (List.mem_cons_self ..) hbranches.1 _ _ head hhead,
        ihbranches (fun other hother => ih other (List.mem_cons_of_mem _ hother)) hbranches.2 hrest⟩

section Growing

variable (hP : Closing P)
include hP

theorem growDeferred_everywhere {scope : Option TypeId} {index : Int} {mark : Mark}
    {part : Deferred} {unfolded : Unfolded} (hmark : mark.complete = false)
    (h : language.growDeferred query scope index mark part = some unfolded) :
    unfolded.node.Everywhere P := by
  rw [growDeferred] at h
  split at h
  · split at h
    · cases h
      cases href : part.reference with
      | none =>
          simp only [listNames, href]
          exact hP.incomplete _ hmark
      | some reference =>
          simp only [listNames, href]
          refine hP.everywhere_of_fresh ⟨fresh_of_incomplete hmark, fill_fresh _ _, ?_⟩
          apply allEverywhere_iff.2
          intro branch hmem
          obtain ⟨name, -, rfl⟩ := List.mem_map.1 hmem
          exact fill_fresh _ _
    · cases h
      exact hP.incomplete _ hmark
  · exact hP.everywhere_of_fresh (unfoldWithin_fresh (isOpen_deferred hmark part) h)

theorem closeSequence_everywhere {mark : Mark} (hmark : mark.complete = false)
    (info : SequenceInfo) {parts : List Outline} (hparts : AllEverywhere P parts) (complete : Bool)
    (limit : Int) : (closeSequence mark info parts complete limit).Everywhere P := by
  simp only [closeSequence]
  split
  · next h =>
      simp only [Bool.and_eq_true, decide_eq_true_eq] at h
      exact ⟨hP.sequence mark info parts h.2, hparts⟩
  · exact ⟨hP.incomplete _ hmark, hparts⟩

theorem closeChoice_everywhere {mark : Mark} (hmark : mark.complete = false)
    {branches : List Outline} (hbranches : AllEverywhere P branches) :
    (closeChoice mark branches).Everywhere P := by
  rw [closeChoice]
  split
  · next h =>
      refine ⟨hP.choice mark branches ?_, hbranches⟩
      intro branch hmem
      exact ⟨List.all_eq_true.1 h branch hmem, (allEverywhere_iff.1 hbranches branch hmem).self⟩
  · exact ⟨hP.incomplete _ hmark, hbranches⟩

/-- Growing keeps a property that completing a node brings about. -/
theorem grow_everywhere {limit : Int} {outline : Outline} (houtline : outline.Everywhere P)
    (scope : Option TypeId) (index : Int) (growth : Growth)
    (h : language.grow query limit scope index outline = some growth) :
    growth.node.Everywhere P := by
  induction outline generalizing scope index growth with
  | blank mark | word mark w | scope mark type =>
      cases h
      exact houtline
  | deferred mark part =>
      rw [grow] at h
      split at h
      · cases h
        exact houtline
      · next hmark =>
          obtain ⟨unfolded, hunfolded, rfl⟩ := Option.map_eq_some_iff.1 h
          exact growDeferred_everywhere hP (by simpa using hmark) hunfolded
  | sequence mark info parts ih =>
      rw [grow] at h
      split at h
      · cases h
        exact houtline
      · next hmark =>
          obtain ⟨grown, hgrown, rfl⟩ := Option.map_eq_some_iff.1 h
          exact closeSequence_everywhere hP (by simpa using hmark) info
            (growParts_everywhere ih houtline.2 hgrown) _ _
  | choice mark branches ih =>
      rw [grow] at h
      split at h
      · cases h
        exact houtline
      · next hmark =>
          obtain ⟨grown, hgrown, rfl⟩ := Option.map_eq_some_iff.1 h
          exact closeChoice_everywhere hP (by simpa using hmark)
            (growBranches_everywhere ih houtline.2 hgrown)

end Growing

end Language

namespace Outline

variable {P : Outline → Prop} {query : Query}

theorem retainParts_everywhere {parts : List Outline}
    (ih : ∀ part ∈ parts, part.Everywhere P → ∀ index,
      (part.retain query index).value.Everywhere P)
    (h : AllEverywhere P parts) (index : Nat) :
    AllEverywhere P (retainParts query index parts).value := by
  induction parts generalizing index with
  | nil => trivial
  | cons part parts ihparts =>
      have hhead := ih part (List.mem_cons_self ..) h.1 index
      rw [retainParts]
      simp only
      split
      · exact ⟨hhead, h.2⟩
      · split
        · exact ⟨hhead, h.2⟩
        · exact ⟨hhead, ihparts (fun other hother => ih other (List.mem_cons_of_mem _ hother)) h.2 _⟩

/-- What holds of all nodes holds of them after pruning, if it holds of the sequences and choices
that pruning rebuilds. -/
theorem retain_everywhere
    (hsequence : ∀ mark info parts index, P (.sequence mark info parts) →
      P (.sequence mark info (retainParts query index parts).value))
    (hchoice : ∀ mark branches index, P (.choice mark branches) →
      P (.choice mark (retainBranches query index branches)))
    {outline : Outline} (h : outline.Everywhere P) (index : Nat) :
    (outline.retain query index).value.Everywhere P := by
  induction outline generalizing index with
  | blank | word | deferred | scope => exact h
  | sequence mark info parts ih =>
      rw [retain]
      split
      · exact h
      · exact ⟨hsequence mark info parts index h.1, retainParts_everywhere ih h.2 index⟩
  | choice mark branches ih =>
      rw [retain]
      split
      · exact h
      · refine ⟨hchoice mark branches index h.1, allEverywhere_iff.2 ?_⟩
        intro kept hmem
        obtain ⟨branch, hbranch, -, rfl⟩ := mem_retainBranches.1 hmem
        exact ih branch hbranch (allEverywhere_iff.1 h.2 branch hbranch) index

end Outline

end Typeahead
