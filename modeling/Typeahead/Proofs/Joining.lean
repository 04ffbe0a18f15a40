/-
The law of joined shapes.

Joined shapes come in batches: the left shapes in their order before one ending, then the left
shapes before the next one.  Up to the cap the endings are the right shapes themselves.  Beyond it
there is one ending for each length that occurs among the right shapes, with the words on which all
right shapes agree and with `<...>` where they do not.  So beyond the cap the number of joined
shapes goes by the number of lengths on the right, and not by the cap.

The combinations are counted by a machine word that stays at its greatest value.  That makes a
difference at one cap only, the greatest machine word: no number of combinations is beyond it.

Main definitions:

* `Typeahead.Hint.Shared` — the right shapes agree on the word at a place;
* `Typeahead.Hint.IsMerge` — the words that are shared, and `<...>` elsewhere;
* `Typeahead.Hint.Replaces` — a shape with some of the words replaced on which the shapes differ;
* `Typeahead.Hint.lengths` — the lengths that occur.

Main results:

* `Typeahead.Hint.join_batches` — what stands where among the joined shapes;
* `Typeahead.Hint.length_join_bound_iff` — when the joined shapes beyond the cap are few enough for
  the larger side to be repeated as often as the cap allows for the smaller one;
* `Typeahead.Hint.not_length_join_bound` — that may fail.
-/

import Mathlib.Data.Finset.Card
import Mathlib.Tactic.Ring
import Typeahead.Hint.Basic

set_option relaxedAutoImplicit false
set_option autoImplicit false

namespace Typeahead

namespace Hint

variable {cap : Nat} {lhs rhs hints : List Hint}

/-! ### Every left shape before every ending -/

theorem mem_joinAll {hint : Hint} :
    hint ∈ joinAll lhs rhs ↔ ∃ left ∈ lhs, ∃ right ∈ rhs, hint = left ++ right := by
  simp only [joinAll, List.mem_flatMap, List.mem_map]
  constructor
  · rintro ⟨right, hright, left, hleft, rfl⟩
    exact ⟨left, hleft, right, hright, rfl⟩
  · rintro ⟨left, hleft, right, hright, rfl⟩
    exact ⟨right, hright, left, hleft, rfl⟩

theorem joinAll_cons (lhs : List Hint) (right : Hint) (rhs : List Hint) :
    joinAll lhs (right :: rhs) = lhs.map (· ++ right) ++ joinAll lhs rhs := rfl

theorem length_joinAll (lhs rhs : List Hint) :
    (joinAll lhs rhs).length = lhs.length * rhs.length := by
  induction rhs with
  | nil => rfl
  | cons right rhs ih =>
      rw [joinAll_cons, List.length_append, List.length_map, ih, List.length_cons, Nat.mul_succ,
        Nat.add_comm]

theorem joinAll_ne_nil (hlhs : lhs ≠ []) (hrhs : rhs ≠ []) : joinAll lhs rhs ≠ [] := by
  rw [← List.length_pos_iff, length_joinAll]
  exact Nat.mul_pos (List.length_pos_iff.2 hlhs) (List.length_pos_iff.2 hrhs)

/-- Shapes are merged only beyond the cap. -/
theorem join_eq_joinAll (hlhs : lhs ≠ []) (hrhs : rhs ≠ [])
    (hcap : combinations lhs rhs ≤ cap) : join cap lhs rhs = joinAll lhs rhs := by
  rw [join, if_neg (by simpa using hlhs), if_neg (by simpa using hrhs), if_neg (by omega)]

/-! ### Lengths -/

/-- The lengths of the shapes that have words. -/
def lengths (hints : List Hint) : Finset Nat := (hints.map List.length).toFinset.erase 0

theorem mem_lengths {n : Nat} :
    n ∈ lengths hints ↔ 0 < n ∧ ∃ hint ∈ hints, hint.length = n := by
  simp [lengths, Nat.pos_iff_ne_zero]

/-- The lengths of the shapes that have words, in increasing order. -/
def increasingLengths (hints : List Hint) : List Nat :=
  ((List.range (longest hints)).map (· + 1)).filter fun n => (hints.map List.length).contains n

theorem mem_increasingLengths {n : Nat} : n ∈ increasingLengths hints ↔ n ∈ lengths hints := by
  simp only [increasingLengths, List.mem_filter, List.mem_map, List.mem_range, mem_lengths,
    List.contains_iff_mem]
  constructor
  · rintro ⟨⟨j, -, rfl⟩, hmem⟩
    exact ⟨Nat.succ_pos j, hmem⟩
  · rintro ⟨hpos, hint, hmem, rfl⟩
    have hle := length_le_longest hmem
    exact ⟨⟨hint.length - 1, by omega, by omega⟩, hint, hmem, rfl⟩

theorem pairwise_increasingLengths (hints : List Hint) :
    (increasingLengths hints).Pairwise (· < ·) := by
  refine List.Pairwise.filter _ (List.pairwise_map.2 ?_)
  exact List.pairwise_lt_range.imp fun h => Nat.succ_lt_succ h

theorem length_increasingLengths (hints : List Hint) :
    (increasingLengths hints).length = (lengths hints).card := by
  have hnodup : (increasingLengths hints).Nodup :=
    (pairwise_increasingLengths hints).imp fun h => Nat.ne_of_lt h
  rw [← List.toFinset_card_of_nodup hnodup]
  congr 1
  ext n
  rw [List.mem_toFinset, mem_increasingLengths]

/-! ### Merged words -/

/-- All shapes that reach place `j` show `word` there. -/
def Shared (hints : List Hint) (j : Nat) (word : String) : Prop :=
  ∀ hint ∈ hints, j < hint.length → hint[j]? = some word

/-- A shape of `n` words: those that the given shapes share, and `<...>` where they share none. -/
structure IsMerge (hints : List Hint) (n : Nat) (hint : Hint) : Prop where
  length_eq : hint.length = n
  shared : ∀ j < n, ∀ word, Shared hints j word → hint[j]? = some word
  varied : ∀ j < n, (∀ word, ¬ Shared hints j word) → hint[j]? = some variedText

/-- A shape of the same length in which only words on which the given shapes differ are replaced by
`<...>`. -/
structure Replaces (hints : List Hint) (original hint : Hint) : Prop where
  length_eq : hint.length = original.length
  keeps_or_differ : ∀ j < original.length, hint[j]? = original[j]? ∨
    hint[j]? = some variedText ∧ ∃ other ∈ hints, j < other.length ∧ other[j]? ≠ original[j]?

theorem Replaces.refl (hints : List Hint) (hint : Hint) : Replaces hints hint hint :=
  ⟨rfl, fun _ _ => .inl rfl⟩

theorem mergedWord_of_shared {j : Nat} {word : String} (h : Shared hints j word)
    (hreach : ∃ hint ∈ hints, j < hint.length) : mergedWord hints j = word := by
  have hall : ∀ shown ∈ hints.filterMap (·[j]?), shown = word := by
    intro shown hshown
    obtain ⟨hint, hmem, hget⟩ := List.mem_filterMap.1 hshown
    have hword := h hint hmem (List.getElem?_eq_some_iff.1 hget).1
    exact Option.some.inj (hget.symm.trans hword)
  rw [mergedWord]
  split
  · next hnone =>
      obtain ⟨hint, hmem, hlt⟩ := hreach
      have hshown : hint[j] ∈ hints.filterMap (·[j]?) :=
        List.mem_filterMap.2 ⟨hint, hmem, List.getElem?_eq_getElem hlt⟩
      rw [hnone] at hshown
      cases hshown
  · next first rest hsome =>
      rw [hsome] at hall
      have hfirst := hall first (List.mem_cons_self ..)
      subst hfirst
      refine if_pos (List.all_eq_true.2 ?_)
      intro other hother
      exact beq_iff_eq.2 (hall other (List.mem_cons_of_mem _ hother))

theorem mergedWord_of_not_shared {j : Nat} (h : ∀ word, ¬ Shared hints j word) :
    mergedWord hints j = variedText := by
  rw [mergedWord]
  split
  · rfl
  · next first rest hsome =>
      refine if_neg fun hall => h first ?_
      intro hint hmem hlt
      have hshown : hint[j] ∈ hints.filterMap (·[j]?) :=
        List.mem_filterMap.2 ⟨hint, hmem, List.getElem?_eq_getElem hlt⟩
      rw [hsome] at hshown
      rw [List.getElem?_eq_getElem hlt]
      rcases List.mem_cons.1 hshown with heq | hrest
      · rw [heq]
      · rw [beq_iff_eq.1 (List.all_eq_true.1 hall _ hrest)]

/-- The first merged words, as many as some shape has, are the merge of that length. -/
theorem isMerge_take {n : Nat} (h : n ∈ lengths hints) :
    IsMerge hints n ((merged hints).take n) := by
  obtain ⟨-, hint, hmem, rfl⟩ := mem_lengths.1 h
  have hle := length_le_longest hmem
  have hget : ∀ j < hint.length,
      ((merged hints).take hint.length)[j]? = some (mergedWord hints j) := by
    intro j hj
    rw [List.getElem?_take_of_lt hj, merged, List.getElem?_map,
      List.getElem?_range (by omega)]
    rfl
  refine ⟨?_, ?_, ?_⟩
  · rw [List.length_take, merged, List.length_map, List.length_range, Nat.min_eq_left hle]
  · intro j hj word hshared
    rw [hget j hj, mergedWord_of_shared hshared ⟨hint, hmem, hj⟩]
  · intro j hj hnone
    rw [hget j hj, mergedWord_of_not_shared hnone]

/-- A merge replaces words of each shape of its length, and only words on which the shapes
differ. -/
theorem IsMerge.replaces {original hint : Hint} (hmem : original ∈ hints)
    (h : IsMerge hints original.length hint) : Replaces hints original hint := by
  refine ⟨h.length_eq, ?_⟩
  intro j hj
  by_cases hshared : Shared hints j original[j]
  · exact .inl ((h.shared j hj _ hshared).trans (List.getElem?_eq_getElem hj).symm)
  · have hother : ∃ other ∈ hints, j < other.length ∧ other[j]? ≠ original[j]? := by
      rw [List.getElem?_eq_getElem hj]
      simpa [Shared] using hshared
    refine .inr ⟨h.varied j hj ?_, hother⟩
    -- a shared word would be the word of the original
    intro word hword
    have horiginal := hword original hmem hj
    rw [List.getElem?_eq_getElem hj] at horiginal
    exact hshared (Option.some.inj horiginal ▸ hword)

/-! ### Joining beyond the cap -/

/-- The merges of the shapes, one for each length. -/
def merges (hints : List Hint) : List Hint :=
  (increasingLengths hints).map fun n => (merged hints).take n

theorem joinMerged_eq (lhs rhs : List Hint) : joinMerged lhs rhs = joinAll lhs (merges rhs) := by
  rw [joinAll, merges, List.flatMap_map]
  rfl

theorem length_merges (hints : List Hint) : (merges hints).length = (lengths hints).card := by
  rw [merges, List.length_map, length_increasingLengths]

theorem join_eq_joinMerged (hlhs : lhs ≠ []) (hrhs : rhs ≠ [])
    (hcap : cap < combinations lhs rhs) : join cap lhs rhs = joinAll lhs (merges rhs) := by
  rw [join, if_neg (by simpa using hlhs), if_neg (by simpa using hrhs), if_pos hcap,
    joinMerged_eq]

/-- Every left shape is continued by each right shape that has words, up to replaced words. -/
theorem exists_replaces_mem_join (cap : Nat) {left right : Hint} (hleft : left ∈ lhs)
    (hright : right ∈ rhs) (hne : right ≠ []) :
    ∃ hint, left ++ hint ∈ join cap lhs rhs ∧ Replaces rhs right hint := by
  have hlhs := List.ne_nil_of_mem hleft
  have hrhs := List.ne_nil_of_mem hright
  by_cases hcap : combinations lhs rhs ≤ cap
  · rw [join_eq_joinAll hlhs hrhs hcap]
    exact ⟨right, mem_joinAll.2 ⟨left, hleft, right, hright, rfl⟩, .refl rhs right⟩
  · have hlength : right.length ∈ lengths rhs :=
      mem_lengths.2 ⟨List.length_pos_iff.2 hne, right, hright, rfl⟩
    rw [join_eq_joinMerged hlhs hrhs (by omega)]
    refine ⟨(merged rhs).take right.length, mem_joinAll.2 ⟨left, hleft, _, ?_, rfl⟩,
      (isMerge_take hlength).replaces hright⟩
    exact List.mem_map_of_mem (mem_increasingLengths.2 hlength)

theorem length_join_of_gt (hlhs : lhs ≠ []) (hrhs : rhs ≠ [])
    (hcap : cap < combinations lhs rhs) :
    (join cap lhs rhs).length = lhs.length * (lengths rhs).card := by
  rw [join_eq_joinMerged hlhs hrhs hcap, length_joinAll, length_merges]

/-- Beyond the cap there are as many batches as there are lengths on the right.  The joined shapes
are no more than the larger side repeated as often as the cap allows for the smaller side if the
lengths are few enough, and only then. -/
theorem length_join_bound_iff {cap : Nat} {lhs rhs : List Hint} (hlhs : lhs ≠ []) (hrhs : rhs ≠ [])
    (hcap : cap < lhs.length * rhs.length) (hword : cap < greatestWord) :
    (join cap lhs rhs).length = lhs.length * (lengths rhs).card ∧
    (rhs.length ≤ lhs.length →
      ((join cap lhs rhs).length * min lhs.length rhs.length ≤ max lhs.length rhs.length * cap ↔
        (lengths rhs).card * rhs.length ≤ cap)) ∧
    (lhs.length ≤ rhs.length →
      ((join cap lhs rhs).length * min lhs.length rhs.length ≤ max lhs.length rhs.length * cap ↔
        (lengths rhs).card * lhs.length ^ 2 ≤ rhs.length * cap)) := by
  have hlength := length_join_of_gt hlhs hrhs (lt_combinations_iff.2 ⟨hcap, hword⟩)
  refine ⟨hlength, ?_, ?_⟩
  · intro hle
    rw [hlength, min_eq_right hle, max_eq_left hle, Nat.mul_assoc]
    exact Nat.mul_le_mul_left_iff (List.length_pos_iff.2 hlhs)
  · intro hle
    have hsquare : lhs.length * (lengths rhs).card * lhs.length =
        (lengths rhs).card * lhs.length ^ 2 := by
      ring
    rw [hlength, min_eq_left hle, max_eq_right hle, hsquare]

/-- Seventeen shapes in front of three lengths: one shape more than the cap, but not too many. -/
theorem length_join_bound_seventeen :
    (join 50 (List.replicate 17 ["set"]) [["x"], ["y", "b"], ["z", "b", "c"]]).length = 51 ∧
    (join 50 (List.replicate 17 ["set"]) [["x"], ["y", "b"], ["z", "b", "c"]]).length * min 17 3 ≤
      max 17 3 * 50 := by
  obtain ⟨hlength, hbound, -⟩ :=
    @length_join_bound_iff 50 (List.replicate 17 ["set"]) [["x"], ["y", "b"], ["z", "b", "c"]]
      (by decide) (by decide) (by decide) (by decide)
  have hcard : (lengths [["x"], ["y", "b"], ["z", "b", "c"]]).card = 3 := by decide
  rw [hcard] at hlength hbound
  exact ⟨hlength, (hbound (by decide)).2 (by decide)⟩

/-- With one shape more than the cap on both sides, and single words on the right, none of the left
shapes is left out. -/
theorem length_join_replicate {cap : Nat} (left : Hint) (word : String)
    (hword : cap < greatestWord) :
    (join cap (List.replicate (cap + 1) left) (List.replicate (cap + 1) [word])).length =
      cap + 1 := by
  have hlengths : lengths (List.replicate (cap + 1) [word]) = {1} := by
    rw [lengths, List.map_replicate, List.toFinset_replicate_of_ne_zero (Nat.succ_ne_zero cap)]
    rfl
  have hpairs : cap < (cap + 1) * (cap + 1) :=
    (Nat.lt_succ_self cap).trans_le (Nat.le_mul_of_pos_right _ (Nat.succ_pos cap))
  have hcap : cap < combinations (List.replicate (cap + 1) left)
      (List.replicate (cap + 1) [word]) := by
    rw [lt_combinations_iff, List.length_replicate, List.length_replicate]
    exact ⟨hpairs, hword⟩
  rw [length_join_of_gt (by simp) (by simp) hcap, hlengths, List.length_replicate,
    Finset.card_singleton, Nat.mul_one]

/-- Joined shapes beyond the cap may be too many: fifty-one on both sides are not fewer with a cap
of fifty. -/
theorem not_length_join_bound : ¬ ∀ (cap : Nat) (lhs rhs : List Hint), lhs ≠ [] → rhs ≠ [] →
    cap < lhs.length * rhs.length →
      (join cap lhs rhs).length * min lhs.length rhs.length ≤
        max lhs.length rhs.length * cap := by
  intro h
  have hlength := length_join_replicate ["set"] "speed" (by decide : 50 < greatestWord)
  have hbound := h 50 (List.replicate (50 + 1) ["set"]) (List.replicate (50 + 1) ["speed"])
    (by decide) (by decide) (by decide)
  rw [hlength, List.length_replicate, List.length_replicate] at hbound
  exact absurd hbound (by decide)

end Hint

end Typeahead
