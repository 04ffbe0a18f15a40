/-
What is left to unfold below a complete node.

A complete node is passed over whenever the outline grows, so a part that is put off below it would
never be unfolded.  There is none: a mark is settled only with a number of words that is known, and
the number of a node is known only if nothing below it is blank or put off.  Pruning keeps this, as
it makes no known number unknown.  Passing over a complete node therefore loses nothing: if its marks
are taken away and it grows once more, the marks are all that changes.

Main definitions:

* `Typeahead.Outline.unmarked` — the outline with nothing settled in its marks;
* `Typeahead.Language.Evolved` — the outlines that growing and pruning lead to, in any order;
* `Typeahead.Language.Final` — no pass has anything to do in the node.

Main results:

* `Typeahead.Language.grow_of_filled` — growing a node that is filled throughout changes its marks
  only;
* `Typeahead.Language.evolved_complete_final` — however an outline was grown and pruned, a complete
  node in it has a known number of words and nothing left to unfold.
-/

import Typeahead.Proofs.WordCounts

set_option relaxedAutoImplicit false
set_option autoImplicit false

namespace Typeahead

/-! ### Outlines without their marks -/

/-- The mark with nothing settled. -/
def Mark.reopen (mark : Mark) : Mark := { slot := mark.slot }

namespace Outline

/-- The outline with nothing settled in its marks. -/
def unmarked : Outline → Outline
  | .blank mark => .blank mark.reopen
  | .word mark w => .word mark.reopen w
  | .deferred mark part => .deferred mark.reopen part
  | .sequence mark info parts => .sequence mark.reopen info (parts.map unmarked)
  | .choice mark branches => .choice mark.reopen (branches.map unmarked)
  | .scope mark type => .scope mark.reopen type

theorem unmarked_closeSequence (mark : Mark) (info : SequenceInfo) (parts : List Outline)
    (complete : Bool) (limit : Int) :
    (closeSequence mark info parts complete limit).unmarked =
      (Outline.sequence mark info parts).unmarked := by
  simp only [closeSequence]
  split <;> simp only [unmarked, Mark.reopen, Mark.settle]

theorem unmarked_closeChoice (mark : Mark) (branches : List Outline) :
    (closeChoice mark branches).unmarked = (Outline.choice mark branches).unmarked := by
  simp only [closeChoice]
  split <;> simp only [unmarked, Mark.reopen, Mark.settle]

theorem unmarked_filled {outline : Outline} (h : outline.Everywhere Filled) :
    outline.unmarked.Everywhere Filled := by
  induction outline with
  | blank | deferred => exact h.elim
  | word | scope => simp [unmarked, Everywhere, Filled]
  | sequence mark info parts ih =>
      rw [unmarked]
      refine ⟨trivial, allEverywhere_iff.2 (List.forall_mem_map.2 ?_)⟩
      exact fun part hpart => ih part hpart (allEverywhere_iff.1 h.2 part hpart)
  | choice mark branches ih =>
      rw [unmarked]
      refine ⟨trivial, allEverywhere_iff.2 (List.forall_mem_map.2 ?_)⟩
      exact fun branch hbranch => ih branch hbranch (allEverywhere_iff.1 h.2 branch hbranch)

theorem unmarked_unmarked (outline : Outline) : outline.unmarked.unmarked = outline.unmarked := by
  induction outline with
  | blank | deferred | word | scope => simp [unmarked, Mark.reopen]
  | sequence mark info parts ih | choice mark branches ih =>
      simpa [unmarked, Mark.reopen] using ih

end Outline

namespace Language

open Outline

variable {language : Language} {query : Query} {scope : Option TypeId} {blocks : List RuleId}
  {limit : Int}

/-! ### Growing where nothing is put off -/

/-- A pass over a node unfolded nothing, and left all but the marks as it was. -/
structure OnlyMarks (node : Outline) (growth : Growth) : Prop where
  grew : growth.grew = false
  node : growth.node.unmarked = node.unmarked

theorem growParts_of_filled {parts : List Outline}
    (ih : ∀ part ∈ parts, ∀ scope index, ∃ growth,
      language.grow query limit scope index part = some growth ∧ OnlyMarks part growth)
    (scope : Option TypeId) (index : Int) :
    ∃ grown, language.growParts query limit scope index parts = some grown ∧
      grown.grew = false ∧ grown.parts.map unmarked = parts.map unmarked := by
  induction parts generalizing scope index with
  | nil => exact ⟨_, rfl, rfl, rfl⟩
  | cons part parts ihparts =>
      rw [growParts]
      split
      · exact ⟨_, rfl, rfl, rfl⟩
      · obtain ⟨head, hhead, hpart⟩ := ih part (List.mem_cons_self ..) (part.scopeAt scope) index
        obtain ⟨rest, hrest, hgrew, hparts⟩ := ihparts
          (fun other hother => ih other (List.mem_cons_of_mem _ hother)) (part.scopeAt scope)
          head.index
        simp only [hhead, hrest, Option.bind_some, Option.map_some, Option.some.injEq,
          exists_eq_left', List.map_cons, hpart.grew, hgrew, hpart.node, hparts, Bool.or_false,
          and_self]

theorem growBranches_of_filled {branches : List Outline}
    (ih : ∀ branch ∈ branches, ∀ scope index, ∃ growth,
      language.grow query limit scope index branch = some growth ∧ OnlyMarks branch growth)
    (scope : Option TypeId) (index : Int) :
    ∃ grown, language.growBranches query limit scope index branches = some grown ∧
      grown.any Growth.grew = false ∧
      (grown.map Growth.node).map unmarked = branches.map unmarked := by
  induction branches with
  | nil => exact ⟨_, rfl, rfl, rfl⟩
  | cons branch branches ihbranches =>
      obtain ⟨head, hhead, hbranch⟩ := ih branch (List.mem_cons_self ..) scope index
      obtain ⟨rest, hrest, hgrew, hbranches⟩ := ihbranches
        fun other hother => ih other (List.mem_cons_of_mem _ hother)
      simp only [growBranches, hhead, hrest, Option.bind_some, Option.map_some, Option.some.injEq,
        exists_eq_left', List.map_cons, List.any_cons, hbranch.grew, hgrew, hbranch.node, hbranches,
        Bool.or_false, and_self]

/-- Growing a node that is filled throughout changes its marks only. -/
theorem grow_of_filled {outline : Outline} (h : outline.Everywhere Filled)
    (scope : Option TypeId) (index : Int) :
    ∃ growth, language.grow query limit scope index outline = some growth ∧
      OnlyMarks outline growth := by
  induction outline generalizing scope index with
  | blank | deferred => exact h.elim
  | word | scope => exact ⟨_, rfl, rfl, rfl⟩
  | sequence mark info parts ih =>
      rw [grow]
      split
      · exact ⟨_, rfl, rfl, rfl⟩
      · obtain ⟨grown, hgrown, hgrew, hparts⟩ := growParts_of_filled
          (fun part hpart => ih part hpart (allEverywhere_iff.1 h.2 part hpart)) scope index
        rw [hgrown]
        refine ⟨_, rfl, hgrew, ?_⟩
        rw [unmarked_closeSequence, unmarked, unmarked, hparts]
  | choice mark branches ih =>
      rw [grow]
      split
      · exact ⟨_, rfl, rfl, rfl⟩
      · obtain ⟨grown, hgrown, hgrew, hbranches⟩ := growBranches_of_filled
          (fun branch hbranch => ih branch hbranch (allEverywhere_iff.1 h.2 branch hbranch))
          scope index
        rw [hgrown]
        refine ⟨_, rfl, hgrew, ?_⟩
        rw [unmarked_closeChoice, unmarked, unmarked, hbranches]

theorem grow_of_complete {node : Outline} (h : node.mark.complete = true) (scope : Option TypeId)
    (index : Int) :
    language.grow query limit scope index node =
      some ⟨node, node.mark.endIndex index, false⟩ := by
  cases node <;> rw [mark] at h <;> simp [grow, h, mark]

/-! ### Growing and pruning in any order -/

/-- The outlines that any number of passes and prunings lead to from the seed, in any order and
wherever they start. -/
inductive Evolved (language : Language) (query : Query) (scope : Option TypeId)
    (blocks : List RuleId) (limit : Int) : Outline → Prop
  | seed {outline : Outline} : language.seed query scope blocks = some outline →
      Evolved language query scope blocks limit outline
  | grow {outline : Outline} {growth : Growth} (current : Option TypeId) (index : Int) :
      Evolved language query scope blocks limit outline →
      language.grow query limit current index outline = some growth →
      Evolved language query scope blocks limit growth.node
  | prune {outline : Outline} (index : Nat) :
      Evolved language query scope blocks limit outline →
      Evolved language query scope blocks limit (outline.retain query index).value

theorem Evolved.countBounds {outline : Outline}
    (h : language.Evolved query scope blocks limit outline) : outline.Everywhere CountBounds := by
  induction h with
  | seed hseed => exact closing_countBounds.everywhere_of_fresh (seed_fresh hseed)
  | grow current index _ hgrowth ih =>
      exact grow_everywhere closing_countBounds ih current index _ hgrowth
  | prune index _ ih => exact retain_countBounds ih index

/-- The node has a known number of words, nothing in it is blank or put off, and no pass has anything
to do in it: it is passed over, and growing it from nothing settled unfolds nothing. -/
structure Final (language : Language) (query : Query) (limit : Int) (node : Outline) : Prop where
  known : 0 ≤ node.mark.wordCount
  filled : node.Everywhere Filled
  skipped : ∀ current index, language.grow query limit current index node =
    some ⟨node, node.mark.endIndex index, false⟩
  same : ∀ current index, ∃ growth,
    language.grow query limit current index node.unmarked = some growth ∧ OnlyMarks node growth

theorem final_of_countBounds {node : Outline} (h : node.Everywhere CountBounds)
    (hcomplete : node.mark.complete = true) : language.Final query limit node := by
  obtain ⟨hrecount, hle⟩ := h.self hcomplete
  have hknown : 0 ≤ node.mark.wordCount := hrecount.trans hle
  have hfilled : node.Everywhere Filled :=
    everywhere_filled_of_count h (count_of_complete hcomplete ▸ hknown)
  refine ⟨hknown, hfilled, grow_of_complete hcomplete, ?_⟩
  intro current index
  obtain ⟨growth, hgrowth, hgrew, hnode⟩ := grow_of_filled (unmarked_filled hfilled) current index
  exact ⟨growth, hgrowth, hgrew, hnode.trans (unmarked_unmarked node)⟩

/-- However an outline was grown and pruned, every complete node in it is final. -/
theorem evolved_complete_final {outline : Outline}
    (h : language.Evolved query scope blocks limit outline) :
    outline.Everywhere fun node => node.mark.complete = true → language.Final query limit node :=
  h.countBounds.everywhere.imp fun _ hnode => final_of_countBounds hnode

/-- With `a c` typed, the choice between `a` and `a b` is completed; it is final also after pruning,
which drops `a b`. -/
theorem evolved_complete_final_optionalLanguage :
    ∃ outline node, optionalLanguage.Evolved ⟨["a", "c"], 1, .hint⟩ none [] 20 outline ∧
      node ∈ outline.children ∧ node.mark.complete = true ∧
      optionalLanguage.Final ⟨["a", "c"], 1, .hint⟩ 20 node := by
  have hrun : ((optionalLanguage.seed ⟨["a", "c"], 1, .hint⟩ none []).bind fun outline =>
      (optionalLanguage.grow ⟨["a", "c"], 1, .hint⟩ 20 none 0 outline).map fun growth =>
        (growth.node.retain ⟨["a", "c"], 1, .hint⟩ 0).value.children.map fun node =>
          node.mark.complete) = some [true] := by decide +kernel
  obtain ⟨outline, hseed, hrun⟩ := Option.bind_eq_some_iff.1 hrun
  obtain ⟨growth, hgrowth, hrun⟩ := Option.map_eq_some_iff.1 hrun
  obtain ⟨node, hnode, hcomplete⟩ := List.mem_map.1 (hrun ▸ List.mem_singleton_self _)
  have hevolved := ((Evolved.seed hseed).grow none 0 hgrowth).prune 0
  exact ⟨_, node, hevolved, hnode, hcomplete,
    (evolved_complete_final hevolved).of_mem_children hnode hcomplete⟩

end Language

end Typeahead
