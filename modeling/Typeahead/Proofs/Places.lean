/-
Places by index and places by counts.

A pass hands an index on from part to part: a part starts where the pass left the one before it.
Pruning and the reading of suggestions find the start of a part by adding up the counts of the parts
before it.  The two agree as far as the pass goes on: wherever it ends at a known place below its
limit, that place is its start and the count of the node as the pass leaves it.  A pass that starts
at an unknown place does not end at a known one below the limit, and one that stops a sequence short
ends at or beyond the limit, so below the limit no part was left out of the sum.

Main definitions:

* `Typeahead.AddsUp` — an index is a known place a known number of words behind the start.

Main results:

* `Typeahead.Language.growParts_addsUp` — the parts of a sequence, from the one of its parts;
* `Typeahead.Language.grow_addsUp` — a pass over any node;
* `Typeahead.Language.grow_index_eq_add_count` — the same with the place spelled out.
-/

import Typeahead.Proofs.CompleteNodes
import Typeahead.Proofs.Lockstep

set_option relaxedAutoImplicit false
set_option autoImplicit false

namespace Typeahead

/-! ### Indices that add up -/

/-- The index is `count` words behind `start`, and both are known. -/
structure AddsUp (start index count : Int) : Prop where
  start_nonneg : 0 ≤ start
  count_nonneg : 0 ≤ count
  index_eq : index = start + count

namespace AddsUp

variable {start index count : Int}

/-- Nothing is passed. -/
theorem zero (h : 0 ≤ start) : AddsUp start start 0 := ⟨h, le_rfl, (Int.add_zero start).symm⟩

theorem advance (h : 0 ≤ Typeahead.advance start count) :
    AddsUp start (Typeahead.advance start count) count := by
  obtain ⟨hstart, hcount⟩ := nonneg_of_advance_nonneg h
  exact ⟨hstart, hcount, advance_of_nonneg hstart hcount⟩

theorem endIndex {mark : Mark} (h : 0 ≤ mark.endIndex start) :
    AddsUp start (mark.endIndex start) mark.wordCount := by
  rw [Mark.endIndex] at h ⊢
  split at h
  · next hunknown => exact absurd h (not_le.2 hunknown)
  · next hknown =>
      rw [if_neg hknown]
      exact advance h

/-- One stretch after another. -/
theorem trans {middle rest : Int} (h : AddsUp start middle count)
    (hrest : AddsUp middle index rest) : AddsUp start index (count + rest) where
  start_nonneg := h.start_nonneg
  count_nonneg := Int.add_nonneg h.count_nonneg hrest.count_nonneg
  index_eq := by rw [hrest.index_eq, h.index_eq, Int.add_assoc]

theorem start_le (h : AddsUp start index count) : start ≤ index := by
  have hcount := h.count_nonneg
  have hindex := h.index_eq
  omega

end AddsUp

/-- Where the branches end if they agree: at the start if there are none. -/
theorem forall_eq_of_agreedIndex_nonneg {start : Int} {indices : List Int}
    (h : 0 ≤ agreedIndex start indices) :
    (indices = [] → agreedIndex start indices = start) ∧
      ∀ index ∈ indices, index = agreedIndex start indices := by
  cases indices with
  | nil => exact ⟨fun _ => rfl, nofun⟩
  | cons first rest =>
      refine ⟨nofun, ?_⟩
      rw [agreedIndex] at h ⊢
      split at h
      · next hall =>
          rw [if_pos hall]
          exact List.forall_mem_cons.2 ⟨rfl, fun index hindex =>
            eq_of_beq (List.all_eq_true.1 hall index hindex)⟩
      · exact absurd h (by decide)

/-! ### Counts of nodes that a pass closes -/

namespace Outline

theorem count_closeSequence {mark : Mark} (hmark : mark.complete = false) (info : SequenceInfo)
    (parts : List Outline) (complete : Bool) (limit : Int) :
    (closeSequence mark info parts complete limit).count = sumCounts parts := by
  simp only [closeSequence]
  split
  · exact count_of_complete rfl
  · rw [count, if_neg (Bool.eq_false_iff.1 hmark)]

theorem count_closeChoice {mark : Mark} (hmark : mark.complete = false) (branches : List Outline) :
    (closeChoice mark branches).count = maxCounts branches := by
  simp only [closeChoice]
  split
  · exact count_of_complete rfl
  · rw [count, if_neg (Bool.eq_false_iff.1 hmark)]

end Outline

/-! ### One pass -/

namespace Language

open Outline

variable {language : Language} {query : Query} {limit : Int}

/-- The parts of a sequence add up if each of them does.  A part is followed by another only below
the limit, so the index is carried over from the end of the sequence to each of them. -/
theorem growParts_addsUp {parts : List Outline}
    (ih : ∀ part ∈ parts, ∀ scope start growth,
      language.grow query limit scope start part = some growth → 0 ≤ growth.index →
        growth.index < limit → AddsUp start growth.index growth.node.count)
    {scope : Option TypeId} {start : Int} {grown : PartsGrowth}
    (h : language.growParts query limit scope start parts = some grown)
    (hknown : 0 ≤ grown.index) (hlimit : grown.index < limit) :
    AddsUp start grown.index (sumCounts grown.parts) := by
  induction parts generalizing scope start grown with
  | nil =>
      cases h
      exact .zero hknown
  | cons part parts ihparts =>
      rw [growParts] at h
      split at h
      · next hstop =>
          -- a sequence that is stopped ends at or beyond the limit
          cases h
          exact absurd hlimit (not_lt.2 hstop)
      · obtain ⟨head, hhead, h⟩ := Option.bind_eq_some_iff.1 h
        obtain ⟨rest, hrest, rfl⟩ := Option.map_eq_some_iff.1 h
        have htail : AddsUp head.index rest.index (sumCounts rest.parts) :=
          ihparts (fun other hother => ih other (List.mem_cons_of_mem _ hother)) hrest hknown hlimit
        have hpart : AddsUp start head.index head.node.count :=
          ih part (List.mem_cons_self ..) _ _ head hhead htail.start_nonneg
            (lt_of_le_of_lt htail.start_le hlimit)
        rw [sumCounts_cons hpart.count_nonneg htail.count_nonneg]
        exact hpart.trans htail

theorem growBranches_addsUp {scope : Option TypeId} {start : Int} {branches : List Outline}
    {grown : List Growth}
    (ih : ∀ branch ∈ branches, ∀ growth,
      language.grow query limit scope start branch = some growth → 0 ≤ growth.index →
        growth.index < limit → AddsUp start growth.index growth.node.count)
    (h : language.growBranches query limit scope start branches = some grown)
    (hknown : 0 ≤ agreedIndex start (grown.map Growth.index))
    (hlimit : agreedIndex start (grown.map Growth.index) < limit) :
    AddsUp start (agreedIndex start (grown.map Growth.index))
      (maxCounts (grown.map Growth.node)) := by
  rw [growBranches_eq_mapM] at h
  obtain ⟨hnil, hagree⟩ := forall_eq_of_agreedIndex_nonneg hknown
  rw [List.forall_mem_map] at hagree
  generalize agreedIndex start (grown.map Growth.index) = index at *
  have hgrown : ∀ growth ∈ grown, AddsUp start index growth.node.count := by
    intro growth hgrowth
    obtain ⟨branch, hbranch, hgrow⟩ := exists_left_of_forall₂ (mapM_eq_some_iff.1 h) growth hgrowth
    obtain rfl := hagree growth hgrowth
    exact ih branch hbranch growth hgrow hknown hlimit
  cases grown with
  | nil =>
      obtain rfl := hnil rfl
      exact .zero hknown
  | cons first rest =>
      have hfirst := hgrown first (List.mem_cons_self ..)
      -- all branches take up as many words, and so does the longest
      have hmax : maxCounts ((first :: rest).map Growth.node) = first.node.count.toNat := by
        refine maxCounts_eq (List.cons_ne_nil _ _) (List.forall_mem_map.2 ?_)
        intro growth hgrowth
        have hcount := (hgrown growth hgrowth).index_eq
        have hcount' := hfirst.index_eq
        have hnonneg := hfirst.count_nonneg
        omega
      rw [hmax, Int.toNat_of_nonneg hfirst.count_nonneg]
      exact hfirst

theorem grow_addsUp_of_complete {scope : Option TypeId} {start : Int} {node : Outline}
    {growth : Growth} (h : language.grow query limit scope start node = some growth)
    (hmark : node.mark.complete = true) (hknown : 0 ≤ growth.index) :
    AddsUp start growth.index growth.node.count := by
  rw [grow_of_complete hmark] at h
  cases h
  rw [count_of_complete hmark]
  exact .endIndex hknown

/-- A pass that ends at a known place below its limit has passed the words that the node takes up
as the pass leaves it. -/
theorem grow_addsUp {scope : Option TypeId} {start : Int} {node : Outline} {growth : Growth}
    (h : language.grow query limit scope start node = some growth) (hknown : 0 ≤ growth.index)
    (hlimit : growth.index < limit) : AddsUp start growth.index growth.node.count := by
  induction node generalizing scope start growth with
  | blank mark | scope mark type =>
      by_cases hmark : mark.complete = true
      · exact grow_addsUp_of_complete h hmark hknown
      · rw [grow, if_neg hmark] at h
        cases h
        have hunknown : 0 ≤ unknownCount := hknown
        exact absurd hunknown (by decide)
  | word mark w =>
      by_cases hmark : mark.complete = true
      · exact grow_addsUp_of_complete h hmark hknown
      · rw [grow, if_neg hmark] at h
        cases h
        rw [count, if_neg hmark]
        exact .advance hknown
  | deferred mark part =>
      by_cases hmark : mark.complete = true
      · exact grow_addsUp_of_complete h hmark hknown
      · rw [grow, if_neg hmark] at h
        obtain ⟨unfolded, -, rfl⟩ := Option.map_eq_some_iff.1 h
        exact .advance hknown
  | sequence mark info parts ih =>
      by_cases hmark : mark.complete = true
      · exact grow_addsUp_of_complete h hmark hknown
      · rw [grow, if_neg hmark] at h
        obtain ⟨grown, hgrown, rfl⟩ := Option.map_eq_some_iff.1 h
        rw [count_closeSequence (Bool.eq_false_iff.2 hmark)]
        refine growParts_addsUp ?_ hgrown hknown hlimit
        exact fun part hpart scope start growth h hknown hlimit => ih part hpart h hknown hlimit
  | choice mark branches ih =>
      by_cases hmark : mark.complete = true
      · exact grow_addsUp_of_complete h hmark hknown
      · rw [grow, if_neg hmark] at h
        obtain ⟨grown, hgrown, rfl⟩ := Option.map_eq_some_iff.1 h
        rw [count_closeChoice (Bool.eq_false_iff.2 hmark)]
        refine growBranches_addsUp ?_ hgrown hknown hlimit
        exact fun branch hbranch growth h hknown hlimit => ih branch hbranch h hknown hlimit

/-- What a pass makes of the parts before one that it visits is what it makes of them on their
own. -/
theorem growParts_take {scope : Option TypeId} {start : Int} {parts : List Outline}
    {grown before : PartsGrowth} {i : Nat}
    (h : language.growParts query limit scope start parts = some grown)
    (hbefore : language.growParts query limit scope start (parts.take i) = some before)
    (hlimit : before.index < limit) : before.parts = grown.parts.take i := by
  induction parts generalizing scope start grown before i with
  | nil =>
      rw [List.take_nil] at hbefore
      cases h
      cases hbefore
      rw [List.take_nil]
  | cons part parts ih =>
      cases i with
      | zero =>
          cases hbefore
          rfl
      | succ i =>
          rw [List.take_succ_cons, growParts] at hbefore
          rw [growParts] at h
          split at hbefore
          · next hstop =>
              cases hbefore
              exact absurd hlimit (not_lt.2 hstop)
          · next hstop =>
              rw [if_neg hstop] at h
              obtain ⟨head, hhead, h⟩ := Option.bind_eq_some_iff.1 h
              obtain ⟨rest, hrest, rfl⟩ := Option.map_eq_some_iff.1 h
              rw [hhead, Option.bind_some] at hbefore
              obtain ⟨restBefore, hrestBefore, rfl⟩ := Option.map_eq_some_iff.1 hbefore
              have hparts : restBefore.parts = rest.parts.take i := ih hrest hrestBefore hlimit
              rw [hparts, List.take_succ_cons]

/-- Where a pass ends at a known place below its limit, the node takes up the words between its
start and that place.  So a part that is visited at a known place below the limit is visited where
the counts that the pass leaves to its left say that it starts. -/
theorem grow_index_eq_add_count (language : Language) (query : Query) (limit : Int)
    (scope : Option TypeId) (start : Int) :
    (∀ node growth, language.grow query limit scope start node = some growth →
      0 ≤ growth.index → growth.index < limit →
      0 ≤ growth.node.count ∧ growth.node.count = growth.index - start) ∧
    ∀ parts grown i before, language.growParts query limit scope start parts = some grown →
      language.growParts query limit scope start (parts.take i) = some before →
      0 ≤ before.index → before.index < limit →
      before.index = start + sumCounts (grown.parts.take i) := by
  constructor
  · intro node growth h hknown hlimit
    have hadds := grow_addsUp h hknown hlimit
    have hindex := hadds.index_eq
    exact ⟨hadds.count_nonneg, by omega⟩
  · intro parts grown i before h hbefore hknown hlimit
    rw [← growParts_take h hbefore hlimit]
    exact (growParts_addsUp (fun _ _ _ _ _ => grow_addsUp) hbefore hknown hlimit).index_eq

/-- A word and two more that are put off. -/
def threeParts : List Outline := [.ofWord (.literal "a"), .ofRule ⟨4⟩ none, .ofRule ⟨5⟩ none]

/-- The three words behind the first typed one end at the fifth place, and the last of them is
visited at the fourth. -/
theorem grow_index_eq_add_count_threeParts :
    ∃ growth grown before,
      nestedLanguage.grow ⟨["set", ""], 1, .suggest⟩ 20 none 1 (.sequence {} {} threeParts) =
        some growth ∧
      nestedLanguage.growParts ⟨["set", ""], 1, .suggest⟩ 20 none 1 threeParts = some grown ∧
      nestedLanguage.growParts ⟨["set", ""], 1, .suggest⟩ 20 none 1 (threeParts.take 2) =
        some before ∧
      (growth.index = 4 ∧ growth.node.count = growth.index - 1) ∧
      before.index = 3 ∧ before.index = 1 + sumCounts (grown.parts.take 2) := by
  have hgrowth : (nestedLanguage.grow ⟨["set", ""], 1, .suggest⟩ 20 none 1
      (.sequence {} {} threeParts)).map Growth.index = some 4 := by decide +kernel
  have hgrown : (nestedLanguage.growParts ⟨["set", ""], 1, .suggest⟩ 20 none 1
      threeParts).isSome = true := by decide +kernel
  have hbefore : (nestedLanguage.growParts ⟨["set", ""], 1, .suggest⟩ 20 none 1
      (threeParts.take 2)).map PartsGrowth.index = some 3 := by decide +kernel
  obtain ⟨growth, hgrowth, hindex⟩ := Option.map_eq_some_iff.1 hgrowth
  obtain ⟨grown, hgrown⟩ := Option.isSome_iff_exists.1 hgrown
  obtain ⟨before, hbefore, hplace⟩ := Option.map_eq_some_iff.1 hbefore
  obtain ⟨hnode, hparts⟩ := grow_index_eq_add_count nestedLanguage ⟨["set", ""], 1, .suggest⟩ 20
    none 1
  refine ⟨growth, grown, before, hgrowth, hgrown, hbefore, ⟨hindex, ?_⟩, hplace, ?_⟩
  · exact (hnode _ growth hgrowth (by omega) (by omega)).2
  · exact hparts threeParts grown 2 before hgrown hbefore (by omega) (by omega)

end Language

end Typeahead
