/-
Pruning with the numbers of a machine and with exact ones.

Counts are added where a sequence is counted, and a count is added to a place where pruning walks
on.  No sum along the way is greater than the bulk of the outline, which takes in the count of
every complete node.  So a machine that adds rightly up to that bulk prunes as with exact numbers.
One that wraps around always comes to an end.

Main definitions:

* `Typeahead.Outline.bulk` — a bound on every sum of counts;
* `Typeahead.Arithmetic.RightUpTo` — sums up to two bounds are exact;
* `Typeahead.Arithmetic.Total` — no sum stops the program.

Main results:

* `Typeahead.Outline.countOn_eq_count` — counts are right where the bulk is not too great;
* `Typeahead.Outline.retainOn_eq_retain` — and so is pruning;
* `Typeahead.Outline.exists_retainOn` — pruning comes to an end where no sum stops it.
-/

import Typeahead.Outline.Machine

set_option relaxedAutoImplicit false
set_option autoImplicit false

namespace Typeahead

/-! ### Ways to add -/

namespace Arithmetic

/-- Counts up to `greatest` and places up to `last` are added exactly. -/
structure RightUpTo (arithmetic : Arithmetic) (greatest last : Nat) : Prop where
  addCounts : ∀ count other : Int, 0 ≤ count → 0 ≤ other → count + other ≤ greatest →
    arithmetic.addCounts count other = some (count + other)
  addPlaces : ∀ place count, place + count ≤ last →
    arithmetic.addPlaces place count = some (place + count)

/-- No sum stops the program. -/
structure Total (arithmetic : Arithmetic) : Prop where
  addCounts : ∀ count other, ∃ sum, arithmetic.addCounts count other = some sum
  addPlaces : ∀ place count, ∃ sum, arithmetic.addPlaces place count = some sum

theorem exact_rightUpTo (greatest last : Nat) : exact.RightUpTo greatest last :=
  ⟨fun _ _ _ _ _ => rfl, fun _ _ _ => rfl⟩

theorem wrapping_rightUpTo : wrapping.RightUpTo (Nat.pow 2 31 - 1) greatestWord := by
  have hpow : Nat.pow 2 31 = 2147483648 ∧ Nat.pow 2 32 = 4294967296 := by decide
  refine ⟨?_, ?_⟩
  · intro count other hcount hother hle
    have hbmod : (count + other).bmod (Nat.pow 2 32) = count + other :=
      Int.bmod_eq_of_le (by omega) (by omega)
    exact congrArg some hbmod
  · intro place count hle
    exact congrArg some (Nat.mod_eq_of_lt (Nat.lt_succ_of_le hle))

theorem checking_rightUpTo : checking.RightUpTo (Nat.pow 2 31 - 1) greatestWord := by
  have hpow : Nat.pow 2 31 = 2147483648 ∧ Int.pow 2 31 = 2147483648 := by decide
  refine ⟨?_, ?_⟩
  · intro count other hcount hother hle
    exact if_pos (by omega)
  · intro place count hle
    exact if_pos hle

theorem wrapping_total : wrapping.Total :=
  ⟨fun _ _ => ⟨_, rfl⟩, fun _ _ => ⟨_, rfl⟩⟩

end Arithmetic

/-! ### Bulks -/

/-- The count of a complete node; any other counts for one. -/
def Mark.bulk (mark : Mark) : Nat := if mark.complete then mark.wordCount.toNat else 1

namespace Outline

variable {arithmetic : Arithmetic} {query : Query}

mutual

/-- The bulks of all marks in the outline together. -/
def bulk : Outline → Nat
  | sequence mark _ parts => mark.bulk + totalBulk parts
  | choice mark branches => mark.bulk + totalBulk branches
  | blank mark | word mark _ | deferred mark _ | scope mark _ => mark.bulk

/-- The bulks of all outlines together. -/
def totalBulk : List Outline → Nat
  | [] => 0
  | outline :: outlines => outline.bulk + totalBulk outlines

end

theorem bulk_le_totalBulk {outline : Outline} {outlines : List Outline}
    (h : outline ∈ outlines) : outline.bulk ≤ totalBulk outlines := by
  induction outlines with
  | nil => cases h
  | cons first outlines ih =>
      rw [totalBulk]
      rcases List.mem_cons.1 h with rfl | h
      · exact Nat.le_add_right ..
      · exact Nat.le_trans (ih h) (Nat.le_add_left ..)

theorem sumCounts_le {parts : List Outline}
    (h : ∀ part ∈ parts, part.count ≤ part.bulk) : sumCounts parts ≤ totalBulk parts := by
  induction parts with
  | nil => exact Int.le_refl 0
  | cons part parts ih =>
      have hpart := h part (List.mem_cons_self ..)
      have hrest := ih fun other hother => h other (List.mem_cons_of_mem _ hother)
      simp only [sumCounts, totalBulk]
      split
      · omega
      · split <;> omega

theorem maxCounts_le {branches : List Outline}
    (h : ∀ branch ∈ branches, branch.count ≤ branch.bulk) :
    maxCounts branches ≤ totalBulk branches := by
  induction branches with
  | nil => exact Int.le_refl 0
  | cons branch branches ih =>
      have hbranch := h branch (List.mem_cons_self ..)
      have hrest := ih fun other hother => h other (List.mem_cons_of_mem _ hother)
      simp only [maxCounts, totalBulk]
      split
      · omega
      · split <;> omega

/-- The bulk is a bound on the number of words. -/
theorem count_le_bulk (outline : Outline) : outline.count ≤ outline.bulk := by
  have hmark : ∀ mark : Mark, mark.complete = true → mark.wordCount ≤ mark.bulk := by
    intro mark hcomplete
    rw [Mark.bulk, if_pos hcomplete]
    exact Int.self_le_toNat _
  induction outline with
  | blank mark | deferred mark | scope mark =>
      rw [count, bulk]
      split
      · next hcomplete => exact hmark mark hcomplete
      · exact Int.le_trans (by decide : unknownCount ≤ 0) (Int.natCast_nonneg _)
  | word mark w =>
      rw [count, bulk]
      split
      · next hcomplete => exact hmark mark hcomplete
      · next hopen =>
          rw [Mark.bulk, if_neg hopen]
          exact Int.le_refl 1
  | sequence mark info parts ih =>
      have hparts := sumCounts_le ih
      rw [count, bulk]
      split
      · next hcomplete => have := hmark mark hcomplete; omega
      · omega
  | choice mark branches ih =>
      have hbranches := maxCounts_le ih
      rw [count, bulk]
      split
      · next hcomplete => have := hmark mark hcomplete; omega
      · omega

theorem totalBulk_retainBranches {branches : List Outline}
    (ih : ∀ branch ∈ branches, ∀ index,
      (branch.retain query index).value.bulk ≤ branch.bulk) (index : Nat) :
    totalBulk (retainBranches query index branches) ≤ totalBulk branches := by
  induction branches with
  | nil => exact Nat.le_refl 0
  | cons branch branches ihbranches =>
      have hbranch := ih branch (List.mem_cons_self ..) index
      have hrest := ihbranches fun other hother => ih other (List.mem_cons_of_mem _ hother)
      simp only [retainBranches, totalBulk]
      split
      · rw [totalBulk]
        omega
      · omega

theorem totalBulk_retainParts {parts : List Outline}
    (ih : ∀ part ∈ parts, ∀ index, (part.retain query index).value.bulk ≤ part.bulk)
    (index : Nat) :
    totalBulk (retainParts query index parts).value ≤ totalBulk parts := by
  induction parts generalizing index with
  | nil => exact Nat.le_refl 0
  | cons part parts ihparts =>
      have hpart := ih part (List.mem_cons_self ..) index
      have hrest := ihparts (fun other hother => ih other (List.mem_cons_of_mem _ hother))
        (index + (part.retain query index).value.count.toNat)
      simp only [retainParts]
      split
      · simp only [totalBulk]
        omega
      · split <;> simp only [totalBulk] <;> omega

/-- Pruning makes no outline bulkier. -/
theorem bulk_retain (outline : Outline) (index : Nat) :
    (outline.retain query index).value.bulk ≤ outline.bulk := by
  induction outline generalizing index with
  | blank | word | deferred | scope => exact Nat.le_refl _
  | sequence mark info parts ih =>
      have hparts := totalBulk_retainParts ih index
      rw [retain]
      split
      · exact Nat.le_refl _
      · simp only [bulk]
        omega
  | choice mark branches ih =>
      have hbranches := totalBulk_retainBranches ih index
      rw [retain]
      split
      · exact Nat.le_refl _
      · simp only [bulk]
        omega

/-! ### Counts that are not too great -/

section RightUpTo

variable {greatest last : Nat} (h : arithmetic.RightUpTo greatest last)
include h

theorem sumCountsOn_eq {parts : List Outline} {sum : Int} (hsum : 0 ≤ sum)
    (hle : sum + totalBulk parts ≤ greatest)
    (ih : ∀ part ∈ parts, part.countOn arithmetic = some part.count) :
    sumCountsOn arithmetic sum parts =
      some (if sumCounts parts < 0 then sumCounts parts else sum + sumCounts parts) := by
  induction parts generalizing sum with
  | nil => simp [sumCountsOn, sumCounts]
  | cons part parts ihparts =>
      have hpart := count_le_bulk part
      rw [totalBulk] at hle
      rw [sumCountsOn, ih part (List.mem_cons_self ..), Option.bind_some]
      simp only [sumCounts]
      by_cases hcount : part.count < 0
      · simp only [hcount, if_true]
      · have hadd := h.addCounts sum part.count hsum (by omega) (by omega)
        rw [if_neg hcount, hadd, Option.bind_some,
          ihparts (by omega) (by omega) fun other hother =>
            ih other (List.mem_cons_of_mem _ hother)]
        by_cases hsums : sumCounts parts < 0
        · simp only [hcount, hsums, if_true, if_false]
        · simp only [hcount, hsums, if_false, Option.some.injEq]
          rw [if_neg (by omega)]
          omega

omit h in
theorem maxCountsOn_eq {branches : List Outline} {found : Int} (hfound : 0 ≤ found)
    (ih : ∀ branch ∈ branches, branch.countOn arithmetic = some branch.count) :
    maxCountsOn arithmetic found branches =
      some (if maxCounts branches < 0 then maxCounts branches
        else max found (maxCounts branches)) := by
  induction branches generalizing found with
  | nil => exact congrArg some (Int.max_eq_left hfound).symm
  | cons branch branches ihbranches =>
      rw [maxCountsOn, ih branch (List.mem_cons_self ..), Option.bind_some]
      simp only [maxCounts]
      by_cases hcount : branch.count < 0
      · simp only [hcount, if_true]
      · rw [if_neg hcount,
          ihbranches (by omega) fun other hother => ih other (List.mem_cons_of_mem _ hother)]
        by_cases hgreatest : maxCounts branches < 0
        · simp only [hcount, hgreatest, if_true, if_false]
        · simp only [hcount, hgreatest, if_false, Option.some.injEq]
          rw [if_neg (by omega)]
          omega

/-- Where the bulk is not too great, counts are right. -/
theorem countOn_eq_count {outline : Outline} (hbulk : outline.bulk ≤ greatest) :
    outline.countOn arithmetic = some outline.count := by
  induction outline with
  | blank | word | deferred | scope => rfl
  | sequence mark info parts ih =>
      rw [bulk] at hbulk
      have hparts := sumCountsOn_eq h (Int.le_refl 0) (by omega) fun part hpart =>
        ih part hpart (Nat.le_trans (bulk_le_totalBulk hpart) (by omega))
      rw [countOn, count, hparts]
      split
      · rfl
      · split <;> simp
  | choice mark branches ih =>
      rw [bulk] at hbulk
      have hbranches := maxCountsOn_eq (Int.le_refl 0) fun branch hbranch =>
        ih branch hbranch (Nat.le_trans (bulk_le_totalBulk hbranch) (by omega))
      rw [countOn, count, hbranches]
      split
      · rfl
      · split
        · rfl
        · rw [Int.max_eq_right (by omega)]

omit h in
theorem retainBranchesOn_eq {branches : List Outline} {index : Nat}
    (ih : ∀ branch ∈ branches,
      branch.retainOn arithmetic query index = some (branch.retain query index)) :
    retainBranchesOn arithmetic query index branches =
      some (retainBranches query index branches) := by
  induction branches with
  | nil => rfl
  | cons branch branches ihbranches =>
      rw [retainBranchesOn, ih branch (List.mem_cons_self ..), Option.bind_some,
        ihbranches fun other hother => ih other (List.mem_cons_of_mem _ hother), Option.map_some,
        retainBranches]

theorem retainPartsOn_eq {parts : List Outline} {index : Nat}
    (ih : ∀ part ∈ parts, ∀ index,
      part.retainOn arithmetic query index = some (part.retain query index))
    (hgreatest : totalBulk parts ≤ greatest) (hlast : index + totalBulk parts ≤ last) :
    retainPartsOn arithmetic query index parts = some (retainParts query index parts) := by
  induction parts generalizing index with
  | nil => rfl
  | cons part parts ihparts =>
      rw [totalBulk] at hgreatest hlast
      have hkept : (part.retain query index).value.bulk ≤ part.bulk := bulk_retain part index
      have hbound := count_le_bulk (part.retain query index).value
      rw [retainPartsOn, ih part (List.mem_cons_self ..), Option.bind_some]
      simp only [retainParts]
      split
      · rfl
      · rw [countOn_eq_count h (by omega), Option.bind_some]
        split
        · rfl
        · rw [h.addPlaces _ _ (by omega), Option.bind_some,
            ihparts (fun other hother => ih other (List.mem_cons_of_mem _ hother)) (by omega)
              (by omega)]
          rfl

/-- Where the bulk is not too great, a machine prunes as with exact numbers. -/
theorem retainOn_eq_retain {outline : Outline} {index : Nat} (hgreatest : outline.bulk ≤ greatest)
    (hlast : query.words.length + outline.bulk ≤ last) :
    outline.retainOn arithmetic query index = some (outline.retain query index) := by
  induction outline generalizing index with
  | blank | word | deferred | scope => rfl
  | sequence mark info parts ih =>
      rw [bulk] at hgreatest hlast
      rw [retainOn, retain]
      split
      · rfl
      · rw [retainPartsOn_eq h _ (by omega) (by omega), Option.map_some]
        intro part hpart place
        have hle := bulk_le_totalBulk hpart
        exact ih part hpart (by omega) (by omega)
  | choice mark branches ih =>
      rw [bulk] at hgreatest hlast
      rw [retainOn, retain]
      split
      · rfl
      · rw [retainBranchesOn_eq, Option.map_some]
        intro branch hbranch
        have hle := bulk_le_totalBulk hbranch
        exact ih branch hbranch (by omega) (by omega)

end RightUpTo

/-! ### Sums that do not stop the program -/

section Total

variable (h : arithmetic.Total)
include h

theorem exists_sumCountsOn {parts : List Outline}
    (ih : ∀ part ∈ parts, ∃ count, part.countOn arithmetic = some count) (sum : Int) :
    ∃ count, sumCountsOn arithmetic sum parts = some count := by
  induction parts generalizing sum with
  | nil => exact ⟨sum, rfl⟩
  | cons part parts ihparts =>
      obtain ⟨count, hcount⟩ := ih part (List.mem_cons_self ..)
      rw [sumCountsOn, hcount, Option.bind_some]
      split
      · exact ⟨count, rfl⟩
      · obtain ⟨next, hnext⟩ := h.addCounts sum count
        rw [hnext, Option.bind_some]
        exact ihparts (fun other hother => ih other (List.mem_cons_of_mem _ hother)) next

omit h in
theorem exists_maxCountsOn {branches : List Outline}
    (ih : ∀ branch ∈ branches, ∃ count, branch.countOn arithmetic = some count) (found : Int) :
    ∃ count, maxCountsOn arithmetic found branches = some count := by
  induction branches generalizing found with
  | nil => exact ⟨found, rfl⟩
  | cons branch branches ihbranches =>
      obtain ⟨count, hcount⟩ := ih branch (List.mem_cons_self ..)
      rw [maxCountsOn, hcount, Option.bind_some]
      split
      · exact ⟨count, rfl⟩
      · exact ihbranches (fun other hother => ih other (List.mem_cons_of_mem _ hother)) _

theorem exists_countOn (outline : Outline) : ∃ count, outline.countOn arithmetic = some count := by
  induction outline with
  | blank | word | deferred | scope => exact ⟨_, rfl⟩
  | sequence mark info parts ih =>
      rw [countOn]
      split
      · exact ⟨_, rfl⟩
      · exact exists_sumCountsOn h ih 0
  | choice mark branches ih =>
      rw [countOn]
      split
      · exact ⟨_, rfl⟩
      · exact exists_maxCountsOn ih 0

omit h in
theorem exists_retainBranchesOn {branches : List Outline} {index : Nat}
    (ih : ∀ branch ∈ branches, ∃ kept, branch.retainOn arithmetic query index = some kept) :
    ∃ kept, retainBranchesOn arithmetic query index branches = some kept := by
  induction branches with
  | nil => exact ⟨[], rfl⟩
  | cons branch branches ihbranches =>
      obtain ⟨kept, hkept⟩ := ih branch (List.mem_cons_self ..)
      obtain ⟨rest, hrest⟩ :=
        ihbranches fun other hother => ih other (List.mem_cons_of_mem _ hother)
      rw [retainBranchesOn, hkept, Option.bind_some, hrest]
      exact ⟨_, rfl⟩

theorem exists_retainPartsOn {parts : List Outline}
    (ih : ∀ part ∈ parts, ∀ index, ∃ kept, part.retainOn arithmetic query index = some kept)
    (index : Nat) : ∃ kept, retainPartsOn arithmetic query index parts = some kept := by
  induction parts generalizing index with
  | nil => exact ⟨_, rfl⟩
  | cons part parts ihparts =>
      obtain ⟨kept, hkept⟩ := ih part (List.mem_cons_self ..) index
      obtain ⟨count, hcount⟩ := exists_countOn h kept.value
      obtain ⟨next, hnext⟩ := h.addPlaces index count.toNat
      obtain ⟨rest, hrest⟩ :=
        ihparts (fun other hother => ih other (List.mem_cons_of_mem _ hother)) next
      rw [retainPartsOn, hkept, Option.bind_some, hcount, Option.bind_some, hnext,
        Option.bind_some, hrest]
      split
      · exact ⟨_, rfl⟩
      · split <;> exact ⟨_, rfl⟩

/-- Where no sum stops it, pruning comes to an end. -/
theorem exists_retainOn (outline : Outline) (index : Nat) :
    ∃ kept, outline.retainOn arithmetic query index = some kept := by
  induction outline generalizing index with
  | blank | word | deferred | scope => exact ⟨_, rfl⟩
  | sequence mark info parts ih =>
      obtain ⟨kept, hkept⟩ := exists_retainPartsOn h ih index
      rw [retainOn, hkept]
      split <;> exact ⟨_, rfl⟩
  | choice mark branches ih =>
      obtain ⟨kept, hkept⟩ := exists_retainBranchesOn fun branch hbranch => ih branch hbranch index
      rw [retainOn, hkept]
      split <;> exact ⟨_, rfl⟩

end Total

end Outline

end Typeahead
