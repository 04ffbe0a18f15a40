/-
One pass over an outline of a position-determined grammar.

A pass is a step in the sense of `Typeahead.Outline.Follows`; it loses no word list either, and it
makes the outline lighter whenever it reports that it unfolded something.  A pass that reports
nothing has met no put off part before its limit, so the outline is expanded to the limit.

The places that a pass computes are not always right: it may not know where a part ends, and it may
stop at the limit inside a part.  What holds is that the place it computes is the true one, or
unknown, or beyond the limit together with the true one.

Main definitions:

* `Typeahead.Reads` — how a pass may read a place;
* `Typeahead.Language.Grows` — what a pass over a node comes to.

Main results:

* `Typeahead.Language.grow_grows` — a pass over a regular outline has an outcome, of this kind.
-/

import Typeahead.Outline.Grow
import Typeahead.Proofs.Unfolding

set_option relaxedAutoImplicit false
set_option autoImplicit false

namespace Typeahead

/-! ### Places as a pass reads them -/

/-- A pass with the given limit may read `place` as `index`: as what it is, as unknown, or as
something beyond the limit if it is beyond the limit itself. -/
def Reads (limit place : Nat) (index : Int) : Prop :=
  index = unknownCount ∨ index = place ∨ (limit : Int) ≤ index ∧ limit ≤ place

namespace Reads

variable {limit place : Nat} {index : Int}

theorem self : Reads limit place place := .inr (.inl rfl)

theorem unknown : Reads limit place unknownCount := .inl rfl

theorem advance (h : Reads limit place index) (n : Nat) :
    Reads limit (place + n) (Typeahead.advance index n) := by
  rcases h with rfl | rfl | ⟨hindex, hplace⟩
  · exact .inl (if_pos (.inl (by decide)))
  · exact .inr (.inl (advance_of_nonneg (by omega) (by omega)))
  · rw [advance_of_nonneg (by omega) (by omega)]
    exact .inr (.inr ⟨by omega, by omega⟩)

/-- A pass that stops at its limit stops at a place beyond the limit. -/
theorem limit_le (h : Reads limit place index) (hstop : (limit : Int) ≤ index) :
    limit ≤ place := by
  rcases h with rfl | rfl | ⟨-, hplace⟩
  · simp only [unknownCount] at hstop
    omega
  · omega
  · exact hplace

theorem beyond (h : Reads limit place index) (hstop : (limit : Int) ≤ index) (n : Nat) :
    Reads limit (place + n) index := by
  have hle := h.limit_le hstop
  exact .inr (.inr ⟨hstop, by omega⟩)

theorem agreedIndex {start : Int} {indices : List Int} (hne : indices ≠ [])
    (h : ∀ index ∈ indices, Reads limit place index) :
    Reads limit place (Typeahead.agreedIndex start indices) := by
  cases indices with
  | nil => exact absurd rfl hne
  | cons index rest =>
      rw [Typeahead.agreedIndex]
      split
      · exact h index (List.mem_cons_self ..)
      · exact unknown

end Reads

/-- The end of a complete node of `n` words. -/
theorem Mark.endIndex_eq {mark : Mark} {n : Nat} (h : mark.wordCount = n) (index : Int) :
    mark.endIndex index = advance index n := by
  rw [Mark.endIndex, h, if_neg (by omega)]

/-! ### Marks set by a pass -/

namespace Outline

variable {grammar : Grammar} {root : RuleId} {cost : RuleId → Nat}

theorem Regular.isExpanded_of_complete {outline : Outline} (h : outline.Regular grammar root)
    (hcomplete : outline.mark.complete = true) : outline.isExpanded = true := by
  cases outline with
  | blank mark => exact h.elim
  | scope mark type => exact h.elim
  | word mark w => rfl
  | deferred mark part => exact absurd (h.2.1.symm.trans hcomplete) Bool.false_ne_true
  | sequence mark info parts => exact h.2.2.1 hcomplete
  | choice mark branches => exact h.2.1 hcomplete

theorem closeSequence_eq (mark : Mark) (info : SequenceInfo) (parts : List Outline)
    (complete : Bool) (limit : Int) :
    ∃ mark', closeSequence mark info parts complete limit = .sequence mark' info parts := by
  rw [closeSequence]
  split
  · exact ⟨_, rfl⟩
  · exact ⟨_, rfl⟩

theorem closeChoice_eq (mark : Mark) (branches : List Outline) :
    ∃ mark', closeChoice mark branches = .choice mark' branches := by
  rw [closeChoice]
  split
  · exact ⟨_, rfl⟩
  · exact ⟨_, rfl⟩

/-- A sequence is marked complete only if the counts of all its parts are known. -/
theorem Follows.closeSequence {mark : Mark} {info : SequenceInfo} {parts parts' : List Outline}
    (hreg : (Outline.sequence mark info parts).Regular grammar root)
    (hmark : mark.complete = false)
    (h : List.Forall₂ (Follows grammar root cost) parts parts') (complete : Bool) (limit : Int) :
    Follows grammar root cost (.sequence mark info parts)
      (Outline.closeSequence mark info parts' complete limit) := by
  rw [Outline.closeSequence]
  split
  · next hclose =>
      simp only [Bool.and_eq_true, decide_eq_true_eq] at hclose
      have hparts := Follows.regularParts h hreg.2.2.2
      -- the sum is known, so each summand is
      have hexp : ∀ part ∈ parts', part.isExpanded = true := fun part hmem =>
        (hparts.regular part hmem).isExpanded_of_count
          (count_nonneg_of_sumCounts hclose.2 part hmem)
      refine Follows.sequence hreg h (fun _ => allExpanded_iff.2 hexp) ?_
      intro huniform _
      have hall := uniformAll_iff.1 (Follows.uniformAll h huniform.2).1
      exact sumCounts_eq_extentAll fun part hmem =>
        (hall part hmem).count_eq (hparts.regular part hmem) (hexp part hmem)
  · exact Follows.sequence hreg h (by simp [hmark]) (by simp [hmark])

/-- A choice is marked complete only if all its branches are. -/
theorem Follows.closeChoice {mark : Mark} {branches branches' : List Outline}
    (hmark : mark.complete = false) (hne : branches' ≠ [])
    (h : FollowsSome grammar root cost branches branches') :
    Follows grammar root cost (.choice mark branches) (Outline.closeChoice mark branches') := by
  rw [Outline.closeChoice]
  split
  · next hall =>
      rw [List.all_eq_true] at hall
      have hreg : ∀ branch ∈ branches', branch.Regular grammar root := fun branch hmem => by
        obtain ⟨before, -, hfollows⟩ := h.exists_follows branch hmem
        exact hfollows.regular
      have hexp : ∀ branch ∈ branches', branch.isExpanded = true := fun branch hmem =>
        (hreg branch hmem).isExpanded_of_complete (hall branch hmem)
      refine Follows.choice h hne (fun _ => allExpanded_iff.2 hexp) ?_
      intro huniform _
      obtain ⟨huniform', hextent⟩ := h.uniformAny hne huniform.2
      refine maxCounts_eq hne ?_
      intro branch hmem
      obtain ⟨hbranch, hlength⟩ := uniformAny_iff.1 huniform' branch hmem
      rw [hbranch.count_eq (hreg branch hmem) (hexp branch hmem), hlength, hextent]
  · exact Follows.choice h hne (by simp [hmark]) (by simp [hmark])

end Outline

/-! ### One pass -/

namespace Language

open Outline

variable {language : Language} {root : RuleId} {cost : RuleId → Nat} {query : Query} {limit : Nat}

/-- What a pass over a node comes to, if it reads the start of the node as `index`. -/
structure Grows (language : Language) (root : RuleId) (cost : RuleId → Nat) (limit : Nat)
    (index : Int) (before : Outline) (growth : Growth) : Prop where
  follows : Follows language.grammar root cost before growth.node
  keeps : ∀ words, before.Yields language.grammar words →
    growth.node.Yields language.grammar words
  lighter : growth.grew = true → growth.node.weight cost < before.weight cost
  expanded : growth.grew = false → ∀ start, Reads limit start index →
    growth.node.ExpandedTo language.grammar limit start
  ends : growth.grew = false → before.Uniform language.grammar → ∀ start, Reads limit start index →
    Reads limit (start + before.extent language.grammar) growth.index

/-- What a pass over the parts of a sequence comes to. -/
structure PartsGrow (language : Language) (root : RuleId) (cost : RuleId → Nat) (limit : Nat)
    (index : Int) (before : List Outline) (grown : PartsGrowth) : Prop where
  follows : List.Forall₂ (Follows language.grammar root cost) before grown.parts
  keeps : ∀ words, YieldsAll language.grammar before words →
    YieldsAll language.grammar grown.parts words
  lighter : grown.grew = true → totalWeight cost grown.parts < totalWeight cost before
  expanded : grown.grew = false → ∀ start, Reads limit start index →
    AllExpandedTo language.grammar limit start grown.parts
  ends : grown.grew = false → UniformAll language.grammar before → ∀ start,
    Reads limit start index →
    Reads limit (start + extentAll language.grammar before) grown.index

/-- A node that a pass leaves alone. -/
theorem grows_same {outline : Outline} {index stop : Int}
    (hreg : outline.Regular language.grammar root) (hexp : outline.isExpanded = true)
    (hstop : outline.Uniform language.grammar →
      stop = advance index (outline.extent language.grammar)) :
    language.Grows root cost limit index outline ⟨outline, stop, false⟩ where
  follows := .refl hreg
  keeps _ hwords := hwords
  lighter := by simp
  expanded _ start _ := expandedTo_of_isExpanded hexp limit start
  ends _ huniform start hreads := by
    rw [hstop huniform]
    exact hreads.advance _

/-- A put off rule is unfolded, whatever place the pass takes it to be at. -/
theorem growDeferred_grows (hg : language.grammar.PositionDetermined root)
    (hprice : language.grammar.Priced root cost) {mark : Mark} {part : Deferred}
    (hreg : (Outline.deferred mark part).Regular language.grammar root) (scope : Option TypeId)
    (index : Int) :
    ∃ unfolded, language.growDeferred query scope index mark part = some unfolded ∧
      ∀ stop, language.Grows root cost limit index (.deferred mark part)
        ⟨unfolded.node, stop, unfolded.grew⟩ := by
  obtain ⟨hslot, hmark, href, id, hrule, hid⟩ := hreg
  have hnode : (Outline.deferred mark part).Fillable language.grammar := ⟨hmark, hslot, href⟩
  obtain ⟨unfolded, hunfolded, hgrew, hstands, hweight⟩ :=
    unfold_unfolds hg hprice hid scope false hnode
  have hlength : (Outline.deferred mark part).Uniform language.grammar →
      language.grammar.HasLength id (language.grammar.ruleLength id) := fun h => h id hrule
  refine ⟨unfolded, by simp [growDeferred, href, hrule, hunfolded], ?_⟩
  intro stop
  refine ⟨⟨hstands.regular, ?_, ?_, ?_, ?_, ?_, ?_⟩, ?_, ?_, ?_, ?_⟩
  · intro words hwords
    exact ⟨id, hrule, (hstands.yields words).1 hwords⟩
  · intro huniform
    exact hstands.uniform (hlength huniform)
  · intro huniform
    simp [hstands.extent hg (hlength huniform), Outline.extent, hrule]
  · simp [isExpanded]
  · simp [Outline.weight, hrule, hstands.weight]
  · simp [Outline.variants, hrule, hstands.variants]
  · rintro words ⟨other, hother, hwords⟩
    rw [hrule] at hother
    cases hother
    exact (hstands.yields words).2 hwords
  · simp [Outline.weight, hrule, hweight]
  · simp [hgrew]
  · simp [hgrew]

/-- A pass over the parts of a sequence, given what it does to each of them. -/
theorem growParts_grow {parts : List Outline}
    (ih : ∀ part ∈ parts, part.Regular language.grammar root → ∀ scope index,
      ∃ growth, language.grow query limit scope index part = some growth ∧
        language.Grows root cost limit index part growth)
    (hreg : RegularParts language.grammar root parts) (scope : Option TypeId) (index : Int) :
    ∃ grown, language.growParts query limit scope index parts = some grown ∧
      language.PartsGrow root cost limit index parts grown := by
  induction parts generalizing scope index with
  | nil =>
      refine ⟨⟨[], index, false, true⟩, by rw [growParts], .nil, fun _ h => h, by simp, ?_, ?_⟩
      · exact fun _ _ _ => trivial
      · intro _ _ _ hreads
        exact hreads
  | cons part parts ihparts =>
      by_cases hstop : (limit : Int) ≤ index
      · -- everything from here on starts beyond the limit and is left alone
        refine ⟨_, by rw [growParts, if_pos hstop], ?_, fun _ h => h, by simp, ?_, ?_⟩
        · exact List.forall₂_same.2 fun other hother => .refl (hreg.regular other hother)
        · intro _ start hreads
          exact allExpandedTo_of_le (hreads.limit_le hstop) _
        · intro _ _ start hreads
          exact hreads.beyond hstop _
      · obtain ⟨hpart, huniform, hparts⟩ := hreg
        obtain ⟨head, hhead, hgrows⟩ := ih part (List.mem_cons_self ..) hpart
          (part.scopeAt scope) index
        obtain ⟨rest, hrest, hrestGrows⟩ := ihparts
          (fun other hother => ih other (List.mem_cons_of_mem _ hother)) hparts
          (part.scopeAt scope) head.index
        refine ⟨_, by rw [growParts, if_neg hstop, hhead, Option.bind_some, hrest, Option.map_some],
          .cons hgrows.follows hrestGrows.follows, ?_, ?_, ?_, ?_⟩
        · rintro words ⟨first, last, rfl, hfirst, hlast⟩
          exact ⟨first, last, rfl, hgrows.keeps first hfirst, hrestGrows.keeps last hlast⟩
        · -- either the first part grew or one of the others, and none is heavier than before
          intro hgrew
          have hle := hgrows.follows.weight
          have hle' := Follows.totalWeight hrestGrows.follows
          simp only [totalWeight]
          rcases Bool.or_eq_true_iff.1 hgrew with hgrew | hgrew
          · have := hgrows.lighter hgrew
            omega
          · have := hrestGrows.lighter hgrew
            omega
        · intro hgrew start hreads
          obtain ⟨hgrew, hgrew'⟩ := Bool.or_eq_false_iff.1 hgrew
          refine ⟨hgrows.expanded hgrew start hreads, ?_⟩
          -- where the others start is known only if this part is uniform
          by_cases hnil : parts = []
          · subst hnil
            rw [List.forall₂_nil_left_iff.1 hrestGrows.follows]
            trivial
          · rw [hgrows.follows.extent (huniform hnil)]
            exact hrestGrows.expanded hgrew' _ (hgrows.ends hgrew (huniform hnil) start hreads)
        · intro hgrew hall start hreads
          obtain ⟨hgrew, hgrew'⟩ := Bool.or_eq_false_iff.1 hgrew
          have hends := hrestGrows.ends hgrew' hall.2 _ (hgrows.ends hgrew hall.1 start hreads)
          rwa [Nat.add_assoc] at hends

/-- A pass over the branches of a choice, given what it does to each of them. -/
theorem growBranches_grow {branches : List Outline}
    (ih : ∀ branch ∈ branches, branch.Regular language.grammar root → ∀ scope index,
      ∃ growth, language.grow query limit scope index branch = some growth ∧
        language.Grows root cost limit index branch growth)
    (hreg : RegularBranches language.grammar root branches) (scope : Option TypeId)
    (index : Int) :
    ∃ grown, language.growBranches query limit scope index branches = some grown ∧
      List.Forall₂ (language.Grows root cost limit index) branches grown := by
  induction branches with
  | nil => exact ⟨_, by rw [growBranches], .nil⟩
  | cons branch branches ihbranches =>
      obtain ⟨head, hhead, hgrows⟩ := ih branch (List.mem_cons_self ..) hreg.1 scope index
      obtain ⟨rest, hrest, hall⟩ := ihbranches
        (fun other hother => ih other (List.mem_cons_of_mem _ hother)) hreg.2
      exact ⟨_, by rw [growBranches, hhead, Option.bind_some, hrest, Option.map_some],
        .cons hgrows hall⟩

/-- A sequence whose parts a pass went over. -/
theorem PartsGrow.sequence {mark : Mark} {info : SequenceInfo} {parts : List Outline}
    {grown : PartsGrowth} {index : Int}
    (hreg : (Outline.sequence mark info parts).Regular language.grammar root)
    (hmark : mark.complete = false)
    (h : language.PartsGrow root cost limit index parts grown) :
    language.Grows root cost limit index (.sequence mark info parts)
      ⟨.closeSequence mark info grown.parts grown.complete limit, grown.index, grown.grew⟩ := by
  have hfollows := Follows.closeSequence hreg hmark h.follows grown.complete limit
  obtain ⟨mark', hclose⟩ := closeSequence_eq mark info grown.parts grown.complete limit
  rw [hclose] at hfollows ⊢
  refine ⟨hfollows, fun words hwords => h.keeps words hwords, h.lighter, h.expanded, ?_⟩
  intro hgrew huniform start hreads
  exact h.ends hgrew huniform.2 start hreads

/-- Branches that a pass went over are lighter together if one of them is. -/
theorem totalWeight_lt {branches : List Outline} {grown : List Growth} {index : Int}
    (h : List.Forall₂ (language.Grows root cost limit index) branches grown)
    (hgrew : grown.any Growth.grew = true) :
    totalWeight cost (grown.map Growth.node) < totalWeight cost branches := by
  induction h with
  | nil => simp at hgrew
  | cons hgrows hrest ih =>
      have hle := hgrows.follows.weight
      have hle' := Follows.totalWeight (List.forall₂_map_right_iff.2
        (hrest.imp fun _ _ hother => hother.follows))
      simp only [List.any_cons, Bool.or_eq_true] at hgrew
      simp only [List.map_cons, totalWeight]
      rcases hgrew with hgrew | hgrew
      · have := hgrows.lighter hgrew
        omega
      · have := ih hgrew
        omega

/-- A choice whose branches a pass went over. -/
theorem Grows.choice {mark : Mark} {branches : List Outline} {grown : List Growth} {index : Int}
    (hreg : (Outline.choice mark branches).Regular language.grammar root)
    (hmark : mark.complete = false)
    (h : List.Forall₂ (language.Grows root cost limit index) branches grown) :
    language.Grows root cost limit index (.choice mark branches)
      ⟨.closeChoice mark (grown.map Growth.node), agreedIndex index (grown.map Growth.index),
        grown.any Growth.grew⟩ := by
  have hsome : FollowsSome language.grammar root cost branches (grown.map Growth.node) := by
    refine List.sublistForall₂_map_left_iff.2 (List.sublistForall₂_iff.2 ⟨branches, ?_, .refl _⟩)
    exact List.Forall₂.flip (h.imp fun _ _ hgrows => hgrows.follows)
  have hne : grown ≠ [] := by
    rintro rfl
    exact hreg.1 (List.forall₂_nil_right_iff.1 h)
  have hfollows := Follows.closeChoice hmark (by simpa using hne) hsome
  obtain ⟨mark', hclose⟩ := closeChoice_eq mark (grown.map Growth.node)
  rw [hclose] at hfollows ⊢
  refine ⟨hfollows, ?_, ?_, ?_, ?_⟩
  · intro words hwords
    obtain ⟨branch, hmem, hbranch⟩ := yieldsAny_iff.1 hwords
    obtain ⟨growth, hgrowth, hgrows⟩ := exists_right_of_forall₂ h branch hmem
    exact yieldsAny_iff.2 ⟨growth.node, List.mem_map_of_mem hgrowth, hgrows.keeps words hbranch⟩
  · intro hgrew
    exact totalWeight_lt h hgrew
  · intro hgrew start hreads
    apply anyExpandedTo_iff.2
    intro node hnode
    obtain ⟨growth, hgrowth, rfl⟩ := List.mem_map.1 hnode
    obtain ⟨branch, -, hgrows⟩ := exists_left_of_forall₂ h growth hgrowth
    exact hgrows.expanded (by simpa using List.any_eq_false.1 hgrew growth hgrowth) start hreads
  · intro hgrew huniform start hreads
    -- the branches are equally long, so each of them ends where the choice does
    refine Reads.agreedIndex (by simpa using hne) fun index' hindex => ?_
    obtain ⟨growth, hgrowth, rfl⟩ := List.mem_map.1 hindex
    obtain ⟨branch, hbranch, hgrows⟩ := exists_left_of_forall₂ h growth hgrowth
    obtain ⟨hunif, hextent⟩ := uniformAny_iff.1 huniform.2 branch hbranch
    rw [Outline.extent, ← hextent]
    exact hgrows.ends (by simpa using List.any_eq_false.1 hgrew growth hgrowth) hunif start hreads

/-- A pass over a regular outline. -/
theorem grow_grows (query : Query) (limit : Nat)
    (hg : language.grammar.PositionDetermined root)
    (hprice : language.grammar.Priced root cost) {outline : Outline}
    (hreg : outline.Regular language.grammar root) (scope : Option TypeId) (index : Int) :
    ∃ growth, language.grow query limit scope index outline = some growth ∧
      language.Grows root cost limit index outline growth := by
  induction outline generalizing scope index with
  | blank mark => exact hreg.elim
  | scope mark type => exact hreg.elim
  | word mark w =>
      refine ⟨_, by rw [grow], grows_same hreg rfl ?_⟩
      intro huniform
      split
      · next hmark => exact Mark.endIndex_eq (huniform hmark) index
      · rfl
  | deferred mark part =>
      obtain ⟨unfolded, hunfolded, hgrows⟩ := growDeferred_grows hg hprice hreg scope index
      refine ⟨_, ?_, hgrows (advance index unfolded.node.count)⟩
      rw [grow, if_neg (by simp [hreg.2.1]), hunfolded, Option.map_some]
  | sequence mark info parts ih =>
      cases hmark : mark.complete with
      | true =>
          refine ⟨_, by rw [grow, if_pos hmark], grows_same hreg (hreg.2.2.1 hmark) ?_⟩
          intro huniform
          exact Mark.endIndex_eq (huniform.1 hmark) index
      | false =>
          obtain ⟨grown, hgrown, hgrows⟩ := growParts_grow ih hreg.2.2.2 scope index
          refine ⟨_, ?_, hgrows.sequence hreg hmark⟩
          rw [grow, if_neg (by simp [hmark]), hgrown, Option.map_some]
  | choice mark branches ih =>
      cases hmark : mark.complete with
      | true =>
          refine ⟨_, by rw [grow, if_pos hmark], grows_same hreg (hreg.2.1 hmark) ?_⟩
          intro huniform
          exact Mark.endIndex_eq (huniform.1 hmark) index
      | false =>
          obtain ⟨grown, hgrown, hall⟩ := growBranches_grow ih hreg.2.2 scope index
          refine ⟨_, ?_, Grows.choice hreg hmark hall⟩
          rw [grow, if_neg (by simp [hmark]), hgrown, Option.map_some]

end Language

end Typeahead
