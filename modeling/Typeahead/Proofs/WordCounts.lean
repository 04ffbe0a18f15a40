/-
The number of words in the mark of a complete node.

Growing leaves complete nodes alone, so the number in the mark stays right.  Pruning drops branches
of complete nodes as well and keeps their marks: where it drops the longest branch of a choice, the
number in the mark is too great.  It is never too small.

Main definitions:

* `Typeahead.Outline.CountHolds`, `Typeahead.Outline.CountBounds` — the mark of a complete node gives
  its number of words, or a bound on it;
* `Typeahead.Outline.Filled` — the node is neither blank nor put off;
* `Typeahead.Outline.KeepsCounts` — pruning changes the number of words of no complete node;
* `Typeahead.Language.Seeding` — the seed has the property if the unfolded blocks have it;
* `Typeahead.Language.Reached` — the outlines that rounds of growing and pruning lead to.

Main results:

* `Typeahead.Outline.everywhere_filled_of_count` — a node with a known count is filled throughout;
* `Typeahead.Outline.count_retain` — pruning never makes an outline longer;
* `Typeahead.Outline.countHolds_retain_iff` — pruning keeps the counts right exactly if it changes
  the number of words of no complete node;
* `Typeahead.Language.seed_everywhere` — a property of all nodes of the seed;
* `Typeahead.Language.reached_countHolds_iff` — so do all rounds together;
* `Typeahead.Language.not_reached_countHolds` — a round may leave a count that is wrong.
-/

import Typeahead.Completion
import Typeahead.Proofs.Nodes

set_option relaxedAutoImplicit false
set_option autoImplicit false

namespace Typeahead

namespace Outline

variable {query : Query}

/-! ### Sums and maxima of counts -/

theorem sumCounts_nonneg {parts : List Outline} (h : ∀ part ∈ parts, 0 ≤ part.count) :
    0 ≤ sumCounts parts := by
  induction parts with
  | nil => exact le_rfl
  | cons part parts ih =>
      have hfirst := h part (List.mem_cons_self ..)
      have hrest := ih fun other hother => h other (List.mem_cons_of_mem _ hother)
      rw [sumCounts]
      simp only [if_neg (not_lt.2 hfirst), if_neg (not_lt.2 hrest)]
      omega

theorem sumCounts_cons {part : Outline} {parts : List Outline} (hpart : 0 ≤ part.count)
    (hparts : 0 ≤ sumCounts parts) : sumCounts (part :: parts) = part.count + sumCounts parts := by
  simp only [sumCounts, if_neg (not_lt.2 hpart), if_neg (not_lt.2 hparts)]

theorem maxCounts_cons {branch : Outline} {branches : List Outline} (hbranch : 0 ≤ branch.count)
    (hbranches : 0 ≤ maxCounts branches) :
    maxCounts (branch :: branches) = max branch.count (maxCounts branches) := by
  simp only [maxCounts, if_neg (not_lt.2 hbranch), if_neg (not_lt.2 hbranches)]

theorem maxCounts_nonneg {branches : List Outline} (h : ∀ branch ∈ branches, 0 ≤ branch.count) :
    0 ≤ maxCounts branches := by
  induction branches with
  | nil => exact le_rfl
  | cons branch branches ih =>
      have hfirst := h branch (List.mem_cons_self ..)
      have hrest := ih fun other hother => h other (List.mem_cons_of_mem _ hother)
      rw [maxCounts]
      simp only [if_neg (not_lt.2 hfirst), if_neg (not_lt.2 hrest)]
      exact hfirst.trans (le_max_left ..)

/-! ### Right counts and bounds -/

/-- If the node is complete, its mark gives its number of words. -/
def CountHolds (node : Outline) : Prop :=
  node.mark.complete = true → node.mark.wordCount = node.recount

/-- If the node is complete, its mark gives a bound on its number of words, which is known. -/
def CountBounds (node : Outline) : Prop :=
  node.mark.complete = true → 0 ≤ node.recount ∧ node.recount ≤ node.mark.wordCount

theorem closing_countHolds : Closing CountHolds where
  incomplete node h hcomplete := by simp [h] at hcomplete
  leaf node _ h _ := h
  sequence mark info parts _ _ := rfl
  choice mark branches _ _ := rfl

theorem closing_countBounds : Closing CountBounds where
  incomplete node h hcomplete := by simp [h] at hcomplete
  leaf node hleaf h _ := by
    refine ⟨?_, h.ge⟩
    cases node with
    | word | scope => simp [recount]
    | blank | deferred | sequence | choice => cases hleaf
  sequence mark info parts h _ := ⟨h, le_rfl⟩
  choice mark branches h _ := by
    refine ⟨maxCounts_nonneg ?_, le_rfl⟩
    intro branch hmem
    obtain ⟨hcomplete, hbounds⟩ := h branch hmem
    rw [count_of_complete hcomplete]
    exact (hbounds hcomplete).1.trans (hbounds hcomplete).2

/-- A known count is not less than that of the parts or branches. -/
theorem CountBounds.recount_le {node : Outline} (h : node.CountBounds) (hcount : 0 ≤ node.count) :
    0 ≤ node.recount ∧ node.recount ≤ node.count := by
  cases hmark : node.mark.complete with
  | true =>
      rw [count_of_complete hmark]
      exact h hmark
  | false =>
      cases node with
      | word | sequence | choice =>
          rw [mark] at hmark
          simp only [count, hmark, Bool.false_eq_true, if_false] at hcount ⊢
          exact ⟨hcount, le_rfl⟩
      | blank | deferred | scope =>
          rw [mark] at hmark
          simp [count, hmark, unknownCount] at hcount

/-- The node is neither blank nor put off. -/
def Filled : Outline → Prop
  | .blank _ | .deferred _ _ => False
  | .word _ _ | .sequence _ _ _ | .choice _ _ | .scope _ _ => True

/-- A node with a known count is filled throughout. -/
theorem everywhere_filled_of_count {outline : Outline} (h : outline.Everywhere CountBounds)
    (hcount : 0 ≤ outline.count) : outline.Everywhere Filled := by
  obtain ⟨hrecount, -⟩ := h.self.recount_le hcount
  induction outline with
  | word | scope => trivial
  | blank | deferred => simp [recount, unknownCount] at hrecount
  | sequence mark info parts ih =>
      refine ⟨trivial, allEverywhere_iff.2 ?_⟩
      intro part hpart
      have hbounds := allEverywhere_iff.1 h.2 part hpart
      have hknown := count_nonneg_of_sumCounts hrecount part hpart
      exact ih part hpart hbounds hknown (hbounds.self.recount_le hknown).1
  | choice mark branches ih =>
      refine ⟨trivial, allEverywhere_iff.2 ?_⟩
      intro branch hbranch
      have hbounds := allEverywhere_iff.1 h.2 branch hbranch
      have hknown := count_nonneg_of_maxCounts hrecount branch hbranch
      exact ih branch hbranch hbounds hknown (hbounds.self.recount_le hknown).1

theorem isExpanded_of_filled {outline : Outline} (h : outline.Everywhere Filled) :
    outline.isExpanded = true := by
  induction outline with
  | blank | word | scope => rfl
  | deferred => exact h.elim
  | sequence mark info parts ih =>
      exact allExpanded_iff.2 fun part hpart => ih part hpart (allEverywhere_iff.1 h.2 part hpart)
  | choice mark branches ih =>
      exact allExpanded_iff.2 fun branch hbranch =>
        ih branch hbranch (allEverywhere_iff.1 h.2 branch hbranch)

/-- In a node with a known count nothing is put off. -/
theorem isExpanded_of_count {outline : Outline} (h : outline.Everywhere CountBounds)
    (hcount : 0 ≤ outline.count) : outline.isExpanded = true :=
  isExpanded_of_filled (everywhere_filled_of_count h hcount)

/-! ### Pruning -/

theorem maxCounts_retainBranches {branches : List Outline}
    (ih : ∀ branch ∈ branches, 0 ≤ branch.count → ∀ index,
      0 ≤ (branch.retain query index).value.count ∧
        (branch.retain query index).value.count ≤ branch.count)
    (h : 0 ≤ maxCounts branches) (index : Nat) :
    0 ≤ maxCounts (retainBranches query index branches) ∧
      maxCounts (retainBranches query index branches) ≤ maxCounts branches := by
  -- the induction needs the counts of the branches, not their maximum
  have hcounts := count_nonneg_of_maxCounts h
  clear h
  induction branches with
  | nil => exact ⟨le_rfl, le_rfl⟩
  | cons branch branches ihbranches =>
      have hbranch := hcounts branch (List.mem_cons_self ..)
      have htail := fun other hother => hcounts other (List.mem_cons_of_mem branch hother)
      obtain ⟨hnonneg, hle⟩ := ih branch (List.mem_cons_self ..) hbranch index
      obtain ⟨hrestNonneg, hrestLe⟩ := ihbranches
        (fun other hother => ih other (List.mem_cons_of_mem _ hother)) htail
      rw [maxCounts_cons hbranch (maxCounts_nonneg htail), retainBranches]
      split
      · rw [maxCounts_cons hnonneg hrestNonneg]
        exact ⟨hnonneg.trans (le_max_left ..), max_le_max hle hrestLe⟩
      · exact ⟨hrestNonneg, hrestLe.trans (le_max_right ..)⟩

theorem sumCounts_retainParts {parts : List Outline}
    (ih : ∀ part ∈ parts, 0 ≤ part.count → ∀ index,
      0 ≤ (part.retain query index).value.count ∧
        (part.retain query index).value.count ≤ part.count)
    (h : 0 ≤ sumCounts parts) (index : Nat) :
    0 ≤ sumCounts (retainParts query index parts).value ∧
      sumCounts (retainParts query index parts).value ≤ sumCounts parts := by
  have hcounts := count_nonneg_of_sumCounts h
  clear h
  induction parts generalizing index with
  | nil => exact ⟨le_rfl, le_rfl⟩
  | cons part parts ihparts =>
      have hpart := hcounts part (List.mem_cons_self ..)
      have htail := fun other hother => hcounts other (List.mem_cons_of_mem part hother)
      have hsum := sumCounts_nonneg htail
      obtain ⟨hnonneg, hle⟩ := ih part (List.mem_cons_self ..) hpart index
      rw [sumCounts_cons hpart hsum, retainParts]
      simp only [if_neg (not_lt.2 hnonneg)]
      split
      · simp only [sumCounts_cons hnonneg hsum]
        omega
      · obtain ⟨hrestNonneg, hrestLe⟩ := ihparts
          (fun other hother => ih other (List.mem_cons_of_mem _ hother))
          (index + (part.retain query index).value.count.toNat) htail
        simp only [sumCounts_cons hnonneg hrestNonneg]
        omega

/-- Pruning never makes an outline longer, and a length that is known stays known. -/
theorem count_retain (query : Query) {outline : Outline} (h : 0 ≤ outline.count) (index : Nat) :
    0 ≤ (outline.retain query index).value.count ∧
      (outline.retain query index).value.count ≤ outline.count := by
  induction outline generalizing index with
  | blank | word | deferred | scope => exact ⟨h, le_rfl⟩
  | sequence mark info parts ih =>
      rw [retain]
      split
      · exact ⟨h, le_rfl⟩
      · cases hmark : mark.complete with
        | true =>
            simp only [count, hmark, if_true] at h ⊢
            exact ⟨h, le_rfl⟩
        | false =>
            simp only [count, hmark, Bool.false_eq_true, if_false] at h ⊢
            exact sumCounts_retainParts ih h index
  | choice mark branches ih =>
      rw [retain]
      split
      · exact ⟨h, le_rfl⟩
      · cases hmark : mark.complete with
        | true =>
            simp only [count, hmark, if_true] at h ⊢
            exact ⟨h, le_rfl⟩
        | false =>
            simp only [count, hmark, Bool.false_eq_true, if_false] at h ⊢
            exact maxCounts_retainBranches ih h index

mutual

/-- Pruning a node that starts at place `index` changes the number of words of no complete node in
it: the longest branch of a complete choice stays, and a complete sequence stays as long as it
is. -/
def KeepsCounts (query : Query) : Nat → Outline → Prop
  | index, .sequence mark _ parts => index < query.words.length →
      (mark.complete = true →
        sumCounts (retainParts query index parts).value = sumCounts parts) ∧
      PartsKeepCounts query index parts
  | index, .choice mark branches => index < query.words.length →
      (mark.complete = true →
        maxCounts (retainBranches query index branches) = maxCounts branches) ∧
      BranchesKeepCounts query index branches
  | _, .blank _ | _, .word _ _ | _, .deferred _ _ | _, .scope _ _ => True

/-- The same for the parts of a sequence, as far as pruning looks at them. -/
def PartsKeepCounts (query : Query) : Nat → List Outline → Prop
  | _, [] => True
  | index, part :: parts =>
      KeepsCounts query index part ∧
        ((retain query index part).stays = true → 0 ≤ (retain query index part).value.count →
          PartsKeepCounts query (index + (retain query index part).value.count.toNat) parts)

/-- The same for the branches of a choice that stay. -/
def BranchesKeepCounts (query : Query) : Nat → List Outline → Prop
  | _, [] => True
  | index, branch :: branches =>
      ((retain query index branch).stays = true → KeepsCounts query index branch) ∧
        BranchesKeepCounts query index branches

end

theorem branchesKeepCounts_iff {index : Nat} {branches : List Outline} :
    BranchesKeepCounts query index branches ↔
      ∀ branch ∈ branches, (branch.retain query index).stays = true →
        branch.KeepsCounts query index := by
  induction branches with
  | nil => simp [BranchesKeepCounts]
  | cons branch branches ih => simp [BranchesKeepCounts, ih]

theorem countHolds_retainParts_iff {parts : List Outline}
    (ih : ∀ part ∈ parts, part.Everywhere CountHolds → ∀ index,
      (part.retain query index).value.Everywhere CountHolds ↔ part.KeepsCounts query index)
    (h : AllEverywhere CountHolds parts) (index : Nat) :
    AllEverywhere CountHolds (retainParts query index parts).value ↔
      PartsKeepCounts query index parts := by
  induction parts generalizing index with
  | nil => simp [retainParts, AllEverywhere, PartsKeepCounts]
  | cons part parts ihparts =>
      have hhead := ih part (List.mem_cons_self ..) h.1 index
      have hrest := ihparts (fun other hother => ih other (List.mem_cons_of_mem _ hother)) h.2
      rw [retainParts, PartsKeepCounts, ← hhead]
      cases hstays : (part.retain query index).stays with
      | false => simp [AllEverywhere, h.2]
      | true =>
          by_cases hcount : (part.retain query index).value.count < 0
          · simp [AllEverywhere, hcount, h.2]
          · simp [AllEverywhere, hcount, not_lt.1 hcount, hrest]

/-- Pruning keeps the counts right exactly if it changes the number of words of no complete node. -/
theorem countHolds_retain_iff {outline : Outline} (h : outline.Everywhere CountHolds)
    (index : Nat) :
    (outline.retain query index).value.Everywhere CountHolds ↔
      outline.KeepsCounts query index := by
  induction outline generalizing index with
  | blank | word | deferred | scope => simpa [retain, KeepsCounts] using h
  | sequence mark info parts ih =>
      by_cases hplace : query.words.length ≤ index
      · have hnot : ¬ index < query.words.length := not_lt.2 hplace
        simp only [retain, if_pos hplace, KeepsCounts, hnot, false_implies, iff_true]
        exact h
      · -- the mark is the old one, so the count holds as long as the sum does not change
        have hself : CountHolds (.sequence mark info (retainParts query index parts).value) ↔
            (mark.complete = true →
              sumCounts (retainParts query index parts).value = sumCounts parts) := by
          refine forall_congr' ?_
          intro hcomplete
          have hcount : mark.wordCount = sumCounts parts := h.1 hcomplete
          rw [← hcount]
          exact eq_comm
        have hparts := countHolds_retainParts_iff ih h.2 index
        simp only [retain, if_neg hplace, KeepsCounts, not_le.1 hplace, true_implies, Everywhere,
          hself, hparts]
  | choice mark branches ih =>
      by_cases hplace : query.words.length ≤ index
      · have hnot : ¬ index < query.words.length := not_lt.2 hplace
        simp only [retain, if_pos hplace, KeepsCounts, hnot, false_implies, iff_true]
        exact h
      · have hself : CountHolds (.choice mark (retainBranches query index branches)) ↔
            (mark.complete = true →
              maxCounts (retainBranches query index branches) = maxCounts branches) := by
          refine forall_congr' ?_
          intro hcomplete
          have hcount : mark.wordCount = maxCounts branches := h.1 hcomplete
          rw [← hcount]
          exact eq_comm
        have hbranches : AllEverywhere CountHolds (retainBranches query index branches) ↔
            BranchesKeepCounts query index branches := by
          rw [allEverywhere_iff, branchesKeepCounts_iff]
          constructor
          · intro hkept branch hmem hstays
            have hbranch := allEverywhere_iff.1 h.2 branch hmem
            exact (ih branch hmem hbranch index).1
              (hkept _ (mem_retainBranches.2 ⟨branch, hmem, hstays, rfl⟩))
          · intro hkeeps kept hmem
            obtain ⟨branch, hbranch, hstays, rfl⟩ := mem_retainBranches.1 hmem
            exact (ih branch hbranch (allEverywhere_iff.1 h.2 branch hbranch) index).2
              (hkeeps branch hbranch hstays)
        simp only [retain, if_neg hplace, KeepsCounts, not_le.1 hplace, true_implies, Everywhere,
          hself, hbranches]

theorem retain_countBounds {outline : Outline} (h : outline.Everywhere CountBounds) (index : Nat) :
    (outline.retain query index).value.Everywhere CountBounds := by
  refine retain_everywhere ?_ ?_ h index
  · intro mark info parts index hbounds hcomplete
    obtain ⟨hnonneg, hle⟩ := hbounds hcomplete
    have hkept := sumCounts_retainParts (fun part _ => count_retain query) hnonneg index
    exact ⟨hkept.1, hkept.2.trans hle⟩
  · intro mark branches index hbounds hcomplete
    obtain ⟨hnonneg, hle⟩ := hbounds hcomplete
    have hkept := maxCounts_retainBranches (fun branch _ => count_retain query) hnonneg index
    exact ⟨hkept.1, hkept.2.trans hle⟩

theorem retain_fresh {outline : Outline} (h : outline.Everywhere Fresh) (index : Nat) :
    (outline.retain query index).value.Everywhere Fresh := by
  -- a fresh sequence or choice is not complete, and its mark stays
  refine retain_everywhere ?_ ?_ h index
  · intro mark info parts index hfresh hcomplete
    exact nomatch (hfresh hcomplete).1
  · intro mark branches index hfresh hcomplete
    exact nomatch (hfresh hcomplete).1

end Outline

/-! ### Rounds of growing and pruning -/

namespace Language

open Outline

variable {language : Language} {query : Query} {scope : Option TypeId} {blocks : List RuleId}
  {limit : Int}

/-- A property of nodes that the seed has as soon as the unfolded blocks it is made of have it. -/
structure Seeding (query : Query) (P : Outline → Prop) : Prop where
  word : ∀ w, P (.ofWord w)
  choice : ∀ branches, P (.choice {} branches)
  append : ∀ mark branches more, P (.choice mark branches) → P (.choice mark (branches ++ more))
  retain : ∀ outline : Outline, outline.Everywhere P → ∀ index,
    (outline.retain query index).value.Everywhere P

theorem prune_eq_some {outline pruned : Outline} (h : outline.prune query 0 = some pruned) :
    (outline.retain query 0).stays = true ∧ (outline.retain query 0).value = pruned := by
  rw [prune] at h
  split at h
  · next hstays => exact ⟨hstays, Option.some.inj h⟩
  · cases h

section Seed

variable {P : Outline → Prop} (hP : Seeding query P)
include hP

theorem offerKeyword_everywhere {node : Outline} (h : node.Everywhere P) (keyword : String) :
    (offerKeyword node keyword).Everywhere P := by
  have hending : (Outline.ofWord (.literal keyword)).Everywhere P := hP.word _
  unfold offerKeyword
  split
  · refine ⟨hP.append _ _ _ h.1, allEverywhere_iff.2 ?_⟩
    intro branch hmem
    rcases List.mem_append.1 hmem with hmem | hmem
    · exact allEverywhere_iff.1 h.2 branch hmem
    · exact List.mem_singleton.1 hmem ▸ hending
  · exact ⟨hP.choice _, h, hending, trivial⟩

variable (hunfold : ∀ block unfolded,
  language.unfold scope true block (.blank {}) = some unfolded → unfolded.node.Everywhere P)
include hunfold

theorem blockNode_everywhere {block : Option RuleId} {node : Outline}
    (h : language.blockNode scope block = some node) : node.Everywhere P := by
  obtain ⟨unfolded, hunfolded, rfl⟩ := Option.map_eq_some_iff.1 h
  have hblock := hunfold block unfolded hunfolded
  split
  · exact offerKeyword_everywhere hP hblock _
  · exact hblock

theorem seedBranches_everywhere {seeds : List (Option RuleId)} {branches : List Outline}
    (h : language.seedBranches query scope seeds = some branches) :
    AllEverywhere P branches := by
  induction seeds generalizing branches with
  | nil =>
      cases h
      trivial
  | cons block seeds ih =>
      obtain ⟨node, hnode, h⟩ := Option.bind_eq_some_iff.1 h
      have hkept : AllEverywhere P (node.prune query 0).toList := by
        apply allEverywhere_iff.2
        intro kept hmem
        obtain ⟨-, rfl⟩ := prune_eq_some (Option.mem_toList.1 hmem)
        exact hP.retain _ (blockNode_everywhere hP hunfold hnode) 0
      split at h
      · obtain ⟨rest, hrest, rfl⟩ := Option.map_eq_some_iff.1 h
        apply allEverywhere_iff.2
        intro branch hmem
        rcases List.mem_append.1 hmem with hmem | hmem
        · exact allEverywhere_iff.1 hkept branch hmem
        · exact allEverywhere_iff.1 (ih hrest) branch hmem
      · cases h
        exact hkept

/-- What holds of all nodes of the unfolded blocks holds of all nodes of the seed. -/
theorem seed_everywhere {outline : Outline}
    (h : language.seed query scope blocks = some outline) : outline.Everywhere P := by
  obtain ⟨branches, hbranches, rfl⟩ := Option.map_eq_some_iff.1 h
  exact ⟨hP.choice _, seedBranches_everywhere hP hunfold hbranches⟩

end Seed

theorem seeding_fresh : Seeding query Fresh where
  word w := fill_fresh _ w
  choice _ := fresh_of_incomplete rfl
  append _ _ _ h hcomplete := nomatch (h hcomplete).1
  retain _ h index := retain_fresh h index

/-- Nothing but words and changes of type is complete in the seed. -/
theorem seed_fresh {outline : Outline} (h : language.seed query scope blocks = some outline) :
    outline.Everywhere Fresh :=
  seed_everywhere seeding_fresh (fun _ _ => unfoldWithin_fresh (isOpen_blank none)) h

/-- The outlines that any number of rounds of growing and pruning lead to from the seed. -/
inductive Reached (language : Language) (query : Query) (scope : Option TypeId)
    (blocks : List RuleId) (limit : Int) : Outline → Prop
  | seed {outline : Outline} : language.seed query scope blocks = some outline →
      Reached language query scope blocks limit outline
  | round {outline pruned : Outline} {growth : Growth} :
      Reached language query scope blocks limit outline →
      language.grow query limit scope 0 outline = some growth →
      growth.node.prune query 0 = some pruned →
      Reached language query scope blocks limit pruned

/-- The count in the mark of a complete node is never too small. -/
theorem Reached.countBounds {outline : Outline}
    (h : language.Reached query scope blocks limit outline) : outline.Everywhere CountBounds := by
  induction h with
  | seed hseed => exact closing_countBounds.everywhere_of_fresh (seed_fresh hseed)
  | round _ hgrowth hpruned ih =>
      obtain ⟨-, rfl⟩ := prune_eq_some hpruned
      exact retain_countBounds (grow_everywhere closing_countBounds ih scope 0 _ hgrowth) 0

/-- As long as pruning changes the number of words of no complete node, the counts are right. -/
theorem Reached.countHolds
    (hkeeps : ∀ outline growth, language.Reached query scope blocks limit outline →
      language.grow query limit scope 0 outline = some growth →
      (growth.node.retain query 0).stays = true → growth.node.KeepsCounts query 0)
    {outline : Outline} (h : language.Reached query scope blocks limit outline) :
    outline.Everywhere CountHolds := by
  induction h with
  | seed hseed => exact closing_countHolds.everywhere_of_fresh (seed_fresh hseed)
  | @round outline _ growth hreached hgrowth hpruned ih =>
      obtain ⟨hstays, rfl⟩ := prune_eq_some hpruned
      have hgrown := grow_everywhere closing_countHolds ih scope 0 growth hgrowth
      exact (countHolds_retain_iff hgrown 0).2 (hkeeps outline growth hreached hgrowth hstays)

/-- In every outline that is reached, the count in the mark of a complete node is at least its
number of words.  The counts are right throughout exactly if no pruning on the way changes the
number of words of a complete node. -/
theorem reached_countHolds_iff (language : Language) (query : Query) (scope : Option TypeId)
    (blocks : List RuleId) (limit : Int) :
    (∀ outline, language.Reached query scope blocks limit outline →
      outline.Everywhere CountBounds) ∧
    ((∀ outline, language.Reached query scope blocks limit outline →
        outline.Everywhere CountHolds) ↔
      ∀ outline growth, language.Reached query scope blocks limit outline →
        language.grow query limit scope 0 outline = some growth →
        (growth.node.retain query 0).stays = true → growth.node.KeepsCounts query 0) := by
  refine ⟨fun outline h => h.countBounds, ?_, fun hkeeps outline h => h.countHolds hkeeps⟩
  intro hholds outline growth hreached hgrowth hstays
  have hgrown := grow_everywhere closing_countHolds (hholds outline hreached) scope 0 growth hgrowth
  have hpruned : growth.node.prune query 0 = some (growth.node.retain query 0).value := by
    rw [prune]
    exact if_pos hstays
  exact (countHolds_retain_iff hgrown 0).1 (hholds _ (hreached.round hgrowth hpruned))

/-! ### A count that is wrong -/

/-- A language with the commands `a` and `a b`. -/
def optionalLanguage : Language where
  grammar :=
    { rules := #[⟨.leaf (.literal "a"), none⟩, ⟨.leaf (.literal "b"), none⟩,
        ⟨.sequence [⟨0⟩, ⟨1⟩] false false, none⟩, ⟨.choice [⟨0⟩, ⟨2⟩], none⟩]
      root := some ⟨3⟩ }

/-- With `a c` typed, the first round completes the choice with two words, drops the branch `a b`,
and keeps the mark although `a` is the only branch left. -/
theorem not_reached_countHolds :
    ∃ outline, optionalLanguage.Reached ⟨["a", "c"], 1, .hint⟩ none [] 20 outline ∧
      ¬ outline.Everywhere CountHolds := by
  have hrun : ((optionalLanguage.seed ⟨["a", "c"], 1, .hint⟩ none []).bind fun outline =>
      (optionalLanguage.grow ⟨["a", "c"], 1, .hint⟩ 20 none 0 outline).bind fun growth =>
        (growth.node.prune ⟨["a", "c"], 1, .hint⟩ 0).map fun pruned =>
          pruned.children.map fun node =>
            (node.mark.complete, node.mark.wordCount, node.recount)) =
      some [(true, 2, 1)] := by decide +kernel
  obtain ⟨outline, hseed, hrun⟩ := Option.bind_eq_some_iff.1 hrun
  obtain ⟨growth, hgrowth, hrun⟩ := Option.bind_eq_some_iff.1 hrun
  obtain ⟨pruned, hpruned, hrun⟩ := Option.map_eq_some_iff.1 hrun
  refine ⟨pruned, (Reached.seed hseed).round hgrowth hpruned, ?_⟩
  intro hholds
  obtain ⟨node, hnode, htriple⟩ := List.mem_map.1 (hrun ▸ List.mem_singleton_self _)
  simp only [Prod.mk.injEq] at htriple
  obtain ⟨hcomplete, hcount, hrecount⟩ := htriple
  have hcount' := hholds.of_mem_children hnode hcomplete
  rw [hcount, hrecount] at hcount'
  cases hcount'

end Language

end Typeahead
