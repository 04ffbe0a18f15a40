/-
Outlines that are alike up to the order of branches and up to names that are listed besides.

Two runs of the completer may differ in the order in which the branches of a choice come, in how
often a branch comes, and in how many names are listed where a reference is put off.  None of this
shows in a number of words, in which branches a typed word rules out, or in what else is offered:
branches count as a set, and a name that is listed stands beside a placeholder which takes up as many
words and is never ruled out.

Main definitions:

* `Typeahead.Mark.Honest` — a complete mark gives a number of words that is known;
* `Typeahead.Outline.Similar` — outlines that are alike up to branches and listed names;
* `Typeahead.Outline.Covers` — the same, or a placeholder beside a name that is listed;
* `Typeahead.Offers.Extends` — offers with further names.

Main results:

* `Typeahead.Outline.Similar.count` — similar outlines take up equally many words;
* `Typeahead.Outline.Similar.prune` — pruning keeps similar outlines similar;
* `Typeahead.Outline.Similar.offers` — similar outlines offer the same, listed names apart.
-/

import Typeahead.Proofs.Offers
import Typeahead.Proofs.WordCounts

set_option relaxedAutoImplicit false
set_option autoImplicit false

namespace Typeahead

section Relations

variable {α β γ δ : Type} {R : α → β → Prop} {S : γ → δ → Prop} {x : Option α} {y : Option β}

theorem rel_map {f : α → γ} {g : β → δ} (h : Option.Rel R x y)
    (hfg : ∀ a b, R a b → S (f a) (g b)) : Option.Rel S (x.map f) (y.map g) := by
  cases h with
  | none => exact .none
  | some hab => exact .some (hfg _ _ hab)

theorem rel_imp {R' : α → β → Prop} (h : Option.Rel R x y) (himp : ∀ a b, R a b → R' a b) :
    Option.Rel R' x y := by
  cases h with
  | none => exact .none
  | some hab => exact .some (himp _ _ hab)

theorem rel_bind {f : α → Option γ} {g : β → Option δ} (h : Option.Rel R x y)
    (hfg : ∀ a b, R a b → Option.Rel S (f a) (g b)) : Option.Rel S (x.bind f) (y.bind g) := by
  cases h with
  | none => exact .none
  | some hab => exact hfg _ _ hab

theorem forall₂_imp_of_mem {R' : α → β → Prop} {xs : List α} {ys : List β}
    (h : List.Forall₂ R xs ys) (himp : ∀ a ∈ xs, ∀ b, R a b → R' a b) :
    List.Forall₂ R' xs ys := by
  induction h with
  | nil => exact .nil
  | cons hab _ ih =>
      exact .cons (himp _ (List.mem_cons_self ..) _ hab)
        (ih fun a hmem => himp a (List.mem_cons_of_mem _ hmem))

/-- Every entry of one list is matched by one of the other. -/
structure Matches (R T : α → β → Prop) (xs : List α) (ys : List β) : Prop where
  left : ∀ x ∈ xs, ∃ y ∈ ys, R x y
  right : ∀ y ∈ ys, ∃ x ∈ xs, T x y

theorem Matches.isEmpty {T : α → β → Prop} {xs : List α} {ys : List β} (h : Matches R T xs ys) :
    ys.isEmpty = xs.isEmpty := by
  cases xs with
  | nil =>
      cases ys with
      | nil => rfl
      | cons y ys =>
          obtain ⟨x, hmem, -⟩ := h.right y (List.mem_cons_self ..)
          cases hmem
  | cons x xs =>
      obtain ⟨y, hmem, -⟩ := h.left x (List.mem_cons_self ..)
      cases ys with
      | nil => cases hmem
      | cons _ _ => rfl

theorem Matches.map {T : α → β → Prop} {S' : γ → δ → Prop} {xs : List α} {ys : List β}
    (h : Matches R T xs ys) {f : α → γ} {g : β → δ} (hleft : ∀ a b, R a b → S (f a) (g b))
    (hright : ∀ a b, T a b → S' (f a) (g b)) : Matches S S' (xs.map f) (ys.map g) where
  left := by
    intro c hc
    obtain ⟨x, hx, rfl⟩ := List.mem_map.1 hc
    obtain ⟨y, hy, hxy⟩ := h.left x hx
    exact ⟨g y, List.mem_map_of_mem hy, hleft x y hxy⟩
  right := by
    intro d hd
    obtain ⟨y, hy, rfl⟩ := List.mem_map.1 hd
    obtain ⟨x, hx, hxy⟩ := h.right y hy
    exact ⟨f x, List.mem_map_of_mem hx, hright x y hxy⟩

theorem Matches.append {T : α → β → Prop} {xs xs' : List α} {ys ys' : List β}
    (h : Matches R T xs ys) (h' : Matches R T xs' ys') : Matches R T (xs ++ xs') (ys ++ ys') where
  left := by
    intro x hx
    rcases List.mem_append.1 hx with hx | hx
    · obtain ⟨y, hy, hxy⟩ := h.left x hx
      exact ⟨y, List.mem_append_left _ hy, hxy⟩
    · obtain ⟨y, hy, hxy⟩ := h'.left x hx
      exact ⟨y, List.mem_append_right _ hy, hxy⟩
  right := by
    intro y hy
    rcases List.mem_append.1 hy with hy | hy
    · obtain ⟨x, hx, hxy⟩ := h.right y hy
      exact ⟨x, List.mem_append_left _ hx, hxy⟩
    · obtain ⟨x, hx, hxy⟩ := h'.right y hy
      exact ⟨x, List.mem_append_right _ hx, hxy⟩

/-- If matching entries are equal, the two lists have the same entries. -/
theorem Matches.mem_iff {xs ys : List α} (h : Matches (fun x y => y = x) (fun x y => y = x) xs ys)
    (x : α) : x ∈ ys ↔ x ∈ xs := by
  constructor
  · intro hmem
    obtain ⟨y, hy, rfl⟩ := h.right x hmem
    exact hy
  · intro hmem
    obtain ⟨y, hy, rfl⟩ := h.left x hmem
    exact hy

end Relations

/-- A complete mark gives a number of words that is known. -/
def Mark.Honest (mark : Mark) : Prop := mark.complete = true → 0 ≤ mark.wordCount

theorem Mark.honest_empty : Mark.Honest {} := fun hcomplete => absurd hcomplete Bool.false_ne_true

theorem Mark.Honest.le_wordCount {mark : Mark} (h : mark.Honest) (hcomplete : mark.complete = true) :
    unknownCount ≤ mark.wordCount := by
  have hnonneg := h hcomplete
  unfold unknownCount
  omega

namespace Outline

variable {extra : String → Prop} {query : Query}

/-! ### Similar outlines -/

/-- A placeholder beside which `other` is one of the extra names. -/
def CoversName (extra : String → Prop) (node other : Outline) : Prop :=
  (∃ placeholder, node = .ofWord (.pattern placeholder)) ∧
    ∃ name, extra name ∧ other = .ofWord (.literal name)

mutual

/-- The two outlines are the same up to the order and the repetition of branches, and up to extra
names in the second one that stand beside a placeholder. -/
def Similar (extra : String → Prop) : Outline → Outline → Prop
  | .blank mark, other => mark.Honest ∧ other = .blank mark
  | .word mark w, other => mark.Honest ∧ other = .word mark w
  | .deferred mark part, other => mark.Honest ∧ other = .deferred mark part
  | .scope mark type, other => mark.Honest ∧ other = .scope mark type
  | .sequence mark info parts, other =>
      mark.Honest ∧ ∃ parts', other = .sequence mark info parts' ∧ SimilarParts extra parts parts'
  | .choice mark branches, other =>
      mark.Honest ∧ ∃ branches', other = .choice mark branches' ∧
        EachSimilar extra branches branches' ∧
        ∀ branch' ∈ branches', SomeCovers extra branches branch'
termination_by structural outline => outline

/-- The parts are similar one by one. -/
def SimilarParts (extra : String → Prop) : List Outline → List Outline → Prop
  | [], parts' => parts' = []
  | part :: parts, parts' =>
      ∃ part' rest', parts' = part' :: rest' ∧ Similar extra part part' ∧
        SimilarParts extra parts rest'
termination_by structural parts => parts

/-- Each branch is similar to one of `branches'`. -/
def EachSimilar (extra : String → Prop) : List Outline → List Outline → Prop
  | [], _ => True
  | branch :: branches, branches' =>
      (∃ branch' ∈ branches', Similar extra branch branch') ∧ EachSimilar extra branches branches'
termination_by structural branches => branches

/-- Some branch is similar to `branch'`, or is a placeholder beside which `branch'` is listed. -/
def SomeCovers (extra : String → Prop) : List Outline → Outline → Prop
  | [], _ => False
  | branch :: branches, branch' =>
      (Similar extra branch branch' ∨ CoversName extra branch branch') ∨
        SomeCovers extra branches branch'
termination_by structural branches => branches

end

/-- The two branches are similar, or the first is a placeholder beside which the second is listed. -/
def Covers (extra : String → Prop) (branch branch' : Outline) : Prop :=
  branch.Similar extra branch' ∨ CoversName extra branch branch'

/-- The branches of two similar choices. -/
abbrev SimilarBranches (extra : String → Prop) : List Outline → List Outline → Prop :=
  Matches (Similar extra) (Covers extra)

theorem similarBranches_singleton {branch branch' : Outline} (h : branch.Similar extra branch') :
    SimilarBranches extra [branch] [branch'] where
  left := by simpa using h
  right := by simpa [Covers] using Or.inl h

theorem similarParts_iff {parts parts' : List Outline} :
    SimilarParts extra parts parts' ↔ List.Forall₂ (Similar extra) parts parts' := by
  induction parts generalizing parts' with
  | nil => rw [SimilarParts, List.forall₂_nil_left_iff]
  | cons part parts ih =>
      simp only [SimilarParts, List.forall₂_cons_left_iff, ih]
      constructor
      · rintro ⟨part', rest', rfl, hpart, hrest⟩
        exact ⟨part', rest', hpart, hrest, rfl⟩
      · rintro ⟨part', rest', hpart, hrest, rfl⟩
        exact ⟨part', rest', rfl, hpart, hrest⟩

theorem eachSimilar_iff {branches branches' : List Outline} :
    EachSimilar extra branches branches' ↔
      ∀ branch ∈ branches, ∃ branch' ∈ branches', branch.Similar extra branch' := by
  induction branches with
  | nil => simp [EachSimilar]
  | cons branch branches ih => simp [EachSimilar, ih]

theorem someCovers_iff {branches : List Outline} {branch' : Outline} :
    SomeCovers extra branches branch' ↔ ∃ branch ∈ branches, branch.Covers extra branch' := by
  induction branches with
  | nil => simp [SomeCovers]
  | cons branch branches ih => simp [SomeCovers, ih, Covers]

theorem similar_sequence_iff {mark : Mark} {info : SequenceInfo} {parts : List Outline}
    {other : Outline} : (Outline.sequence mark info parts).Similar extra other ↔
      mark.Honest ∧ ∃ parts', other = .sequence mark info parts' ∧
        List.Forall₂ (Similar extra) parts parts' := by
  simp only [Similar, similarParts_iff]

theorem similar_choice_iff {mark : Mark} {branches : List Outline} {other : Outline} :
    (Outline.choice mark branches).Similar extra other ↔
      mark.Honest ∧ ∃ branches', other = .choice mark branches' ∧
        SimilarBranches extra branches branches' := by
  simp only [Similar, eachSimilar_iff, someCovers_iff]
  constructor
  · rintro ⟨hmark, branches', rfl, hleft, hright⟩
    exact ⟨hmark, branches', rfl, hleft, hright⟩
  · rintro ⟨hmark, branches', rfl, hleft, hright⟩
    exact ⟨hmark, branches', rfl, hleft, hright⟩

theorem Similar.honest {outline other : Outline} (h : outline.Similar extra other) :
    outline.mark.Honest := by
  cases outline <;> exact h.1

theorem Similar.mark {outline other : Outline} (h : outline.Similar extra other) :
    other.mark = outline.mark := by
  cases outline with
  | blank | word | deferred | scope =>
      obtain ⟨-, rfl⟩ := h
      rfl
  | sequence | choice =>
      obtain ⟨-, _, rfl, -⟩ := h
      rfl

theorem Similar.isDeferred {outline other : Outline} (h : outline.Similar extra other) :
    other.isDeferred = outline.isDeferred := by
  cases outline with
  | blank | word | deferred | scope =>
      obtain ⟨-, rfl⟩ := h
      rfl
  | sequence | choice =>
      obtain ⟨-, _, rfl, -⟩ := h
      rfl

theorem Similar.scopeAt {outline other : Outline} (h : outline.Similar extra other)
    (current : Option TypeId) : other.scopeAt current = outline.scopeAt current := by
  cases outline with
  | blank | word | deferred | scope =>
      obtain ⟨-, rfl⟩ := h
      rfl
  | sequence | choice =>
      obtain ⟨-, _, rfl, -⟩ := h
      rfl

/-- An outline in which all marks are honest is similar to itself. -/
theorem similar_self {outline : Outline} (h : outline.Everywhere fun node => node.mark.Honest) :
    outline.Similar extra outline := by
  induction outline with
  | blank | word | deferred | scope => exact ⟨h, rfl⟩
  | sequence mark info parts ih =>
      refine similar_sequence_iff.2 ⟨h.1, parts, rfl, List.forall₂_same.2 ?_⟩
      intro part hmem
      exact ih part hmem (allEverywhere_iff.1 h.2 part hmem)
  | choice mark branches ih =>
      have hself : ∀ branch ∈ branches, branch.Similar extra branch := fun branch hmem =>
        ih branch hmem (allEverywhere_iff.1 h.2 branch hmem)
      refine similar_choice_iff.2 ⟨h.1, branches, rfl, ?_, ?_⟩
      · intro branch hmem
        exact ⟨branch, hmem, hself branch hmem⟩
      · intro branch hmem
        exact ⟨branch, hmem, .inl (hself branch hmem)⟩

theorem similar_self_of_fresh {outline : Outline} (h : outline.Everywhere Fresh) :
    outline.Similar extra outline := by
  refine similar_self (h.imp ?_)
  intro node hfresh hcomplete
  obtain ⟨hleaf, hcount⟩ := hfresh hcomplete
  rw [hcount]
  cases node with
  | word | scope => simp [recount]
  | blank | deferred | sequence | choice => cases hleaf

theorem similar_ofWord (w : Word) : (Outline.ofWord w).Similar extra (.ofWord w) :=
  similar_self_of_fresh (fill_fresh _ _)

/-! ### Word counts -/

/-- The greatest count is unknown if some count is, and otherwise one that no other exceeds. -/
theorem maxCounts_cases {branches : List Outline}
    (h : ∀ branch ∈ branches, unknownCount ≤ branch.count) :
    (maxCounts branches = unknownCount ∧ ∃ branch ∈ branches, branch.count = unknownCount) ∨
      ((∀ branch ∈ branches, 0 ≤ branch.count ∧ branch.count ≤ maxCounts branches) ∧
        0 ≤ maxCounts branches ∧
        (maxCounts branches = 0 ∨ ∃ branch ∈ branches, branch.count = maxCounts branches)) := by
  induction branches with
  | nil => exact .inr ⟨by simp, le_rfl, .inl rfl⟩
  | cons branch branches ih =>
      have hbranch := h branch (List.mem_cons_self ..)
      rcases ih fun other hother => h other (List.mem_cons_of_mem _ hother) with
        ⟨hmax, other, hother, hcount⟩ | ⟨hall, hnonneg, hmax⟩
      · refine .inl ⟨?_, other, List.mem_cons_of_mem _ hother, hcount⟩
        simp only [maxCounts, hmax]
        unfold unknownCount at *
        split <;> omega
      · by_cases hneg : branch.count < 0
        · have hcount : branch.count = unknownCount := by
            unfold unknownCount at *
            omega
          refine .inl ⟨?_, branch, List.mem_cons_self .., hcount⟩
          simp only [maxCounts, if_pos hneg]
          exact hcount
        · rw [maxCounts_cons (not_lt.1 hneg) hnonneg]
          refine .inr ⟨?_, by omega, ?_⟩
          · intro other hother
            rcases List.mem_cons.1 hother with rfl | hother
            · omega
            · have := hall other hother
              omega
          · rcases le_total branch.count (maxCounts branches) with hle | hle
            · rw [max_eq_right hle]
              refine hmax.imp_right ?_
              rintro ⟨other, hother, hcount⟩
              exact ⟨other, List.mem_cons_of_mem _ hother, hcount⟩
            · exact .inr ⟨branch, List.mem_cons_self .., (max_eq_left hle).symm⟩

/-- The greatest count depends on which counts there are only. -/
theorem maxCounts_congr {branches branches' : List Outline}
    (h : ∀ branch ∈ branches, unknownCount ≤ branch.count)
    (hleft : ∀ branch ∈ branches, ∃ branch' ∈ branches', branch'.count = branch.count)
    (hright : ∀ branch' ∈ branches', ∃ branch ∈ branches, branch'.count = branch.count) :
    maxCounts branches' = maxCounts branches := by
  have h' : ∀ branch' ∈ branches', unknownCount ≤ branch'.count := by
    intro branch' hmem
    obtain ⟨branch, hbranch, hcount⟩ := hright branch' hmem
    rw [hcount]
    exact h branch hbranch
  rcases maxCounts_cases h with ⟨hmax, branch, hbranch, hcount⟩ | ⟨hall, hnonneg, hmax⟩
  · obtain ⟨branch', hbranch', heq⟩ := hleft branch hbranch
    rcases maxCounts_cases h' with ⟨hmax', -⟩ | ⟨hall', -⟩
    · rw [hmax, hmax']
    · have := (hall' branch' hbranch').1
      rw [heq, hcount] at this
      exact absurd this (by decide)
  · rcases maxCounts_cases h' with ⟨-, branch', hbranch', hcount'⟩ | ⟨hall', hnonneg', hmax'⟩
    · obtain ⟨branch, hbranch, heq⟩ := hright branch' hbranch'
      have := (hall branch hbranch).1
      rw [← heq, hcount'] at this
      exact absurd this (by decide)
    · apply le_antisymm
      · rcases hmax' with hzero | ⟨branch', hbranch', hcount'⟩
        · omega
        · obtain ⟨branch, hbranch, heq⟩ := hright branch' hbranch'
          rw [← hcount', heq]
          exact (hall branch hbranch).2
      · rcases hmax with hzero | ⟨branch, hbranch, hcount⟩
        · omega
        · obtain ⟨branch', hbranch', heq⟩ := hleft branch hbranch
          rw [← hcount, ← heq]
          exact (hall' branch' hbranch').2

theorem CoversName.count {branch branch' : Outline} (h : CoversName extra branch branch') :
    branch'.count = branch.count := by
  obtain ⟨⟨placeholder, rfl⟩, name, -, rfl⟩ := h
  rfl

theorem unknownCount_le_sumCounts {parts : List Outline}
    (h : ∀ part ∈ parts, unknownCount ≤ part.count) : unknownCount ≤ sumCounts parts := by
  induction parts with
  | nil => decide
  | cons part parts ih =>
      have hpart := h part (List.mem_cons_self ..)
      have hparts := ih fun other hother => h other (List.mem_cons_of_mem _ hother)
      simp only [sumCounts]
      unfold unknownCount at *
      split
      · exact hpart
      · split <;> omega

theorem sumCounts_congr {parts parts' : List Outline}
    (h : List.Forall₂ (fun part part' => part'.count = part.count) parts parts') :
    sumCounts parts' = sumCounts parts := by
  induction h with
  | nil => rfl
  | cons hpart _ ih => simp only [sumCounts, hpart, ih]

/-- Similar outlines take up equally many words, and a number below zero is the one that says that
this is unknown. -/
theorem Similar.count_and_le {outline other : Outline} (h : outline.Similar extra other) :
    other.count = outline.count ∧ unknownCount ≤ outline.count := by
  induction outline generalizing other with
  | blank mark | deferred mark part | scope mark type =>
      obtain ⟨hmark, rfl⟩ := h
      refine ⟨rfl, ?_⟩
      simp only [count]
      split
      · next hcomplete => exact hmark.le_wordCount hcomplete
      · exact le_rfl
  | word mark w =>
      obtain ⟨hmark, rfl⟩ := h
      refine ⟨rfl, ?_⟩
      simp only [count]
      split
      · next hcomplete => exact hmark.le_wordCount hcomplete
      · decide
  | sequence mark info parts ih =>
      obtain ⟨hmark, parts', rfl, hparts⟩ := similar_sequence_iff.1 h
      have hsum : sumCounts parts' = sumCounts parts :=
        sumCounts_congr (forall₂_imp_of_mem hparts fun part hmem part' hpart =>
          (ih part hmem hpart).1)
      have hle : unknownCount ≤ sumCounts parts := by
        apply unknownCount_le_sumCounts
        intro part hmem
        obtain ⟨part', -, hpart⟩ := exists_right_of_forall₂ hparts part hmem
        exact (ih part hmem hpart).2
      simp only [count, hsum]
      refine ⟨trivial, ?_⟩
      split
      · next hcomplete => exact hmark.le_wordCount hcomplete
      · exact hle
  | choice mark branches ih =>
      obtain ⟨hmark, branches', rfl, hbranches⟩ := similar_choice_iff.1 h
      have hle : ∀ branch ∈ branches, unknownCount ≤ branch.count := by
        intro branch hmem
        obtain ⟨branch', -, hbranch⟩ := hbranches.left branch hmem
        exact (ih branch hmem hbranch).2
      have hmax : maxCounts branches' = maxCounts branches := by
        refine maxCounts_congr hle ?_ ?_
        · intro branch hmem
          obtain ⟨branch', hmem', hbranch⟩ := hbranches.left branch hmem
          exact ⟨branch', hmem', (ih branch hmem hbranch).1⟩
        · intro branch' hmem'
          obtain ⟨branch, hmem, hbranch | hname⟩ := hbranches.right branch' hmem'
          · exact ⟨branch, hmem, (ih branch hmem hbranch).1⟩
          · exact ⟨branch, hmem, hname.count⟩
      simp only [count, hmax]
      refine ⟨trivial, ?_⟩
      split
      · next hcomplete => exact hmark.le_wordCount hcomplete
      · rcases maxCounts_cases hle with ⟨heq, -⟩ | ⟨-, hnonneg, -⟩
        · exact heq.ge
        · exact le_trans (by decide) hnonneg

theorem Similar.count {outline other : Outline} (h : outline.Similar extra other) :
    other.count = outline.count := h.count_and_le.1

theorem Covers.count {branch branch' : Outline} (h : branch.Covers extra branch') :
    branch'.count = branch.count := h.elim Similar.count CoversName.count

theorem SimilarBranches.maxCounts {branches branches' : List Outline}
    (h : SimilarBranches extra branches branches') :
    maxCounts branches' = maxCounts branches := by
  refine maxCounts_congr ?_ ?_ ?_
  · intro branch hmem
    obtain ⟨branch', -, hbranch⟩ := h.left branch hmem
    exact hbranch.count_and_le.2
  · intro branch hmem
    obtain ⟨branch', hmem', hbranch⟩ := h.left branch hmem
    exact ⟨branch', hmem', hbranch.count⟩
  · intro branch' hmem'
    obtain ⟨branch, hmem, hbranch⟩ := h.right branch' hmem'
    exact ⟨branch, hmem, hbranch.count⟩

/-! ### Pruning -/

/-- What pruning makes of similar nodes: either both stay or none, and they stay similar. -/
def SimilarRetained (extra : String → Prop) (kept kept' : Retained Outline) : Prop :=
  kept'.stays = kept.stays ∧ kept.value.Similar extra kept'.value

theorem retainParts_similar {parts parts' : List Outline}
    (h : List.Forall₂ (Similar extra) parts parts')
    (ih : ∀ part ∈ parts, ∀ part', part.Similar extra part' → ∀ index,
      SimilarRetained extra (part.retain query index) (part'.retain query index)) (index : Nat) :
    (retainParts query index parts').stays = (retainParts query index parts).stays ∧
      List.Forall₂ (Similar extra) (retainParts query index parts).value
        (retainParts query index parts').value := by
  induction h generalizing index with
  | nil => exact ⟨rfl, .nil⟩
  | @cons part part' parts parts' hpart hparts ihparts =>
      obtain ⟨hstays, hvalue⟩ := ih part (List.mem_cons_self ..) part' hpart index
      obtain ⟨hrestStays, hrest⟩ := ihparts (fun other hmem => ih other (List.mem_cons_of_mem _ hmem))
        (index + (part.retain query index).value.count.toNat)
      simp only [retainParts, hstays, hvalue.count]
      split
      · exact ⟨rfl, .cons hvalue hparts⟩
      · split
        · exact ⟨rfl, .cons hvalue hparts⟩
        · exact ⟨hrestStays, .cons hvalue hrest⟩

/-- The branches that stay are similar: a placeholder is never ruled out, so it still stands beside
the names listed with it. -/
theorem SimilarBranches.retain {branches branches' : List Outline}
    (h : SimilarBranches extra branches branches')
    (ih : ∀ branch ∈ branches, ∀ branch', branch.Similar extra branch' → ∀ index,
      SimilarRetained extra (branch.retain query index) (branch'.retain query index))
    (index : Nat) :
    SimilarBranches extra (retainBranches query index branches)
      (retainBranches query index branches') where
  left := by
    intro kept hkept
    obtain ⟨branch, hmem, hstays, rfl⟩ := mem_retainBranches.1 hkept
    obtain ⟨branch', hmem', hbranch⟩ := h.left branch hmem
    obtain ⟨hsame, hvalue⟩ := ih branch hmem branch' hbranch index
    exact ⟨_, mem_retainBranches.2 ⟨branch', hmem', hsame.trans hstays, rfl⟩, hvalue⟩
  right := by
    intro kept' hkept'
    obtain ⟨branch', hmem', hstays', rfl⟩ := mem_retainBranches.1 hkept'
    obtain ⟨branch, hmem, hbranch | hname⟩ := h.right branch' hmem'
    · obtain ⟨hsame, hvalue⟩ := ih branch hmem branch' hbranch index
      exact ⟨_, mem_retainBranches.2 ⟨branch, hmem, hsame.symm.trans hstays', rfl⟩, .inl hvalue⟩
    · obtain ⟨⟨placeholder, rfl⟩, name, hextra, rfl⟩ := hname
      exact ⟨_, mem_retainBranches.2 ⟨_, hmem, rfl, rfl⟩, .inr ⟨⟨placeholder, rfl⟩, name, hextra, rfl⟩⟩

theorem Similar.retain {outline other : Outline} (h : outline.Similar extra other) (query : Query)
    (index : Nat) :
    SimilarRetained extra (outline.retain query index) (other.retain query index) := by
  induction outline generalizing other index with
  | blank | word | deferred | scope =>
      obtain ⟨hmark, rfl⟩ := h
      exact ⟨rfl, hmark, rfl⟩
  | sequence mark info parts ih =>
      obtain ⟨hmark, parts', rfl, hparts⟩ := similar_sequence_iff.1 h
      obtain ⟨hstays, hvalue⟩ := retainParts_similar hparts
        (fun part hmem part' hpart index => ih part hmem hpart index) index
      simp only [Outline.retain]
      split
      · exact ⟨rfl, h⟩
      · exact ⟨hstays, similar_sequence_iff.2 ⟨hmark, _, rfl, hvalue⟩⟩
  | choice mark branches ih =>
      obtain ⟨hmark, branches', rfl, hbranches⟩ := similar_choice_iff.1 h
      have hkept := hbranches.retain
        (fun branch hmem branch' hbranch index => ih branch hmem hbranch index) index
      simp only [Outline.retain]
      split
      · exact ⟨rfl, h⟩
      · exact ⟨by rw [hkept.isEmpty], similar_choice_iff.2 ⟨hmark, _, rfl, hkept⟩⟩

/-- Pruning keeps similar outlines similar, or rules both out. -/
theorem Similar.prune {outline other : Outline} (h : outline.Similar extra other) (query : Query)
    (index : Nat) : Option.Rel (Similar extra) (outline.prune query index)
      (other.prune query index) := by
  obtain ⟨hstays, hvalue⟩ := h.retain query index
  simp only [Outline.prune, hstays]
  split
  · exact .some hvalue
  · exact .none

end Outline

/-! ### Offers -/

/-- The second offers are the first ones and some of the extra names. -/
structure Offers.Extends (extra : String → Prop) (offers offers' : Offers) : Prop where
  more : offers'.more = offers.more
  left : ∀ text ∈ offers.texts, text ∈ offers'.texts
  right : ∀ text ∈ offers'.texts, text ∈ offers.texts ∨
    ∃ name, extra name ∧ text = (Word.literal name).rendered

theorem Offers.Extends.refl {extra : String → Prop} (offers : Offers) :
    Offers.Extends extra offers offers where
  more := rfl
  left _ htext := htext
  right _ htext := .inl htext

theorem Offers.Extends.append {extra : String → Prop} {left left' right right' : Offers}
    (hleft : Offers.Extends extra left left') (hright : Offers.Extends extra right right') :
    Offers.Extends extra (left.append right) (left'.append right') where
  more := by simp only [Offers.append, hleft.more, hright.more]
  left := by
    intro text htext
    rcases List.mem_append.1 htext with htext | htext
    · exact List.mem_append_left _ (hleft.left text htext)
    · exact List.mem_append_right _ (hright.left text htext)
  right := by
    intro text htext
    rcases List.mem_append.1 htext with htext | htext
    · exact (hleft.right text htext).imp_left (List.mem_append_left _)
    · exact (hright.right text htext).imp_left (List.mem_append_right _)

namespace Outline

variable {extra : String → Prop} {grammar grammar' : Grammar}

theorem branchOffers_more {remaining : Int} {branches : List Outline} :
    (branchOffers grammar remaining branches).more = true ↔
      ∃ branch ∈ branches, (branch.offers grammar remaining).more = true := by
  induction branches with
  | nil => simp [branchOffers]
  | cons branch branches ih => simp [branchOffers, Offers.append, ih]

/-- A name offers itself at most, and only at the place of the query. -/
theorem offers_name (name : String) (remaining : Int) (hplace : remaining ≠ pastQuery) :
    ((Outline.ofWord (.literal name)).offers grammar remaining).more = false ∧
      ∀ text ∈ ((Outline.ofWord (.literal name)).offers grammar remaining).texts,
        text = (Word.literal name).rendered := by
  simp only [ofWord, fill, offers, if_neg hplace]
  split
  · exact ⟨rfl, fun text htext => List.mem_singleton.1 htext⟩
  · exact ⟨rfl, fun text htext => absurd htext List.not_mem_nil⟩

theorem SimilarBranches.offers {branches branches' : List Outline}
    (h : SimilarBranches extra branches branches') {remaining : Int}
    (hplace : remaining ≠ pastQuery)
    (ih : ∀ branch ∈ branches, ∀ branch', branch.Similar extra branch' →
      Offers.Extends extra (branch.offers grammar remaining) (branch'.offers grammar' remaining)) :
    Offers.Extends extra (branchOffers grammar remaining branches)
      (branchOffers grammar' remaining branches') where
  more := by
    rw [Bool.eq_iff_iff, branchOffers_more, branchOffers_more]
    constructor
    · rintro ⟨branch', hmem', hmore⟩
      obtain ⟨branch, hmem, hbranch | hname⟩ := h.right branch' hmem'
      · exact ⟨branch, hmem, (ih branch hmem branch' hbranch).more.symm.trans hmore⟩
      · obtain ⟨-, name, -, rfl⟩ := hname
        rw [(offers_name name remaining hplace).1] at hmore
        cases hmore
    · rintro ⟨branch, hmem, hmore⟩
      obtain ⟨branch', hmem', hbranch⟩ := h.left branch hmem
      exact ⟨branch', hmem', (ih branch hmem branch' hbranch).more.trans hmore⟩
  left := by
    intro text htext
    obtain ⟨branch, hmem, htext⟩ := mem_branchOffers.1 htext
    obtain ⟨branch', hmem', hbranch⟩ := h.left branch hmem
    exact mem_branchOffers.2 ⟨branch', hmem', (ih branch hmem branch' hbranch).left text htext⟩
  right := by
    intro text htext
    obtain ⟨branch', hmem', htext⟩ := mem_branchOffers.1 htext
    obtain ⟨branch, hmem, hbranch | hname⟩ := h.right branch' hmem'
    · refine ((ih branch hmem branch' hbranch).right text htext).imp_left ?_
      intro htext
      exact mem_branchOffers.2 ⟨branch, hmem, htext⟩
    · obtain ⟨-, name, hextra, rfl⟩ := hname
      exact .inr ⟨name, hextra, (offers_name name remaining hplace).2 text htext⟩

theorem partOffers_similar {parts parts' : List Outline}
    (h : List.Forall₂ (Similar extra) parts parts')
    (ih : ∀ part ∈ parts, ∀ part', part.Similar extra part' → ∀ remaining,
      Offers.Extends extra (part.offers grammar remaining) (part'.offers grammar' remaining))
    (remaining : Int) :
    Offers.Extends extra (partOffers grammar remaining parts)
      (partOffers grammar' remaining parts') := by
  induction h generalizing remaining with
  | nil => exact .refl _
  | @cons part part' parts parts' hpart _ ihparts =>
      have hrest := ihparts (fun other hmem => ih other (List.mem_cons_of_mem _ hmem))
        (remaining - part.count)
      rw [partOffers, partOffers, hpart.count]
      exact (ih part (List.mem_cons_self ..) part' hpart remaining).append hrest

/-- Similar outlines offer the same, apart from extra names in the second one. -/
theorem Similar.offers (hclosing : ∀ slot, grammar'.closing? slot = grammar.closing? slot)
    {outline other : Outline} (h : outline.Similar extra other) (remaining : Int) :
    Offers.Extends extra (outline.offers grammar remaining) (other.offers grammar' remaining) := by
  induction outline generalizing other remaining with
  | blank | deferred | scope =>
      obtain ⟨-, rfl⟩ := h
      exact .refl _
  | word mark w =>
      obtain ⟨-, rfl⟩ := h
      simp only [Outline.offers, hclosing]
      exact .refl _
  | sequence mark info parts ih =>
      obtain ⟨-, parts', rfl, hparts⟩ := similar_sequence_iff.1 h
      simp only [Outline.offers]
      split
      · exact .refl _
      · exact partOffers_similar hparts
          (fun part hmem part' hpart remaining => ih part hmem hpart remaining) remaining
  | choice mark branches ih =>
      obtain ⟨-, branches', rfl, hbranches⟩ := similar_choice_iff.1 h
      simp only [Outline.offers]
      split
      · exact .refl _
      · next hplace =>
          exact hbranches.offers hplace fun branch hmem branch' hbranch =>
            ih branch hmem hbranch remaining

end Outline

end Typeahead
