/-
Where the offered words stand.

The walk that reads suggestions off an outline counts down the words still to pass.  This module
follows the walk together with the place that it has really reached.  In an outline that is expanded
beyond the place of the query the two agree up to that place, so that all words there are offered.
Beyond it they need not agree: a part whose number of words is unknown makes the countdown go up
again, and the walk may offer a word that stands two or more places further on.

Main definitions:

* `Typeahead.Outline.OffersAt` — the walk offers a word that stands at a place;
* `Typeahead.Outline.InnerCounted` — the parts of a sequence before the last are counted.

Main results:

* `Typeahead.Outline.mem_offers_iff` — the texts offered are those of the words offered somewhere;
* `Typeahead.Outline.OffersAt.exists_yields` — an offered word stands at its place in a word list;
* `Typeahead.Outline.offersAt_of_yields` — every word at the place of the query is offered there;
* `Typeahead.Outline.OffersAt.place_eq_or_lt` — no word is offered at any other place, except two or
  more places after the query;
* `Typeahead.Outline.OffersAt.place_eq_of_innerCounted` — that takes a part whose number of words is
  unknown.
-/

import Typeahead.Outline.Offers
import Typeahead.Proofs.Nodes

set_option relaxedAutoImplicit false
set_option autoImplicit false

namespace Typeahead

namespace Outline

mutual

/-- The walk over a node that starts at the given place, with the given number of words to pass,
offers the word `w` that stands at `place`. -/
def OffersAt (grammar : Grammar) (place : Nat) (w : Word) : Int → Nat → Outline → Prop
  | remaining, start, .word _ found => remaining = 0 ∧ start = place ∧ found = w
  | remaining, start, .choice _ branches =>
      remaining ≠ pastQuery ∧ BranchOffersAt grammar place w remaining start branches
  | remaining, start, .sequence _ _ parts =>
      remaining ≠ pastQuery ∧ PartOffersAt grammar place w remaining start parts
  | _, _, .blank _ | _, _, .deferred _ _ | _, _, .scope _ _ => False

/-- The walk over one of the branches offers the word. -/
def BranchOffersAt (grammar : Grammar) (place : Nat) (w : Word) :
    Int → Nat → List Outline → Prop
  | _, _, [] => False
  | remaining, start, branch :: branches =>
      OffersAt grammar place w remaining start branch ∨
        BranchOffersAt grammar place w remaining start branches

/-- The walk over one of the parts offers the word.  The countdown passes the words that a part
claims to take up, and the place moves on by the words that it does take up. -/
def PartOffersAt (grammar : Grammar) (place : Nat) (w : Word) :
    Int → Nat → List Outline → Prop
  | _, _, [] => False
  | remaining, start, part :: parts =>
      OffersAt grammar place w remaining start part ∨
        PartOffersAt grammar place w (remaining - part.count) (start + part.extent grammar) parts

end

variable {grammar : Grammar} {root : RuleId} {place : Nat} {w : Word}

theorem branchOffersAt_iff {remaining : Int} {start : Nat} {branches : List Outline} :
    BranchOffersAt grammar place w remaining start branches ↔
      ∃ branch ∈ branches, branch.OffersAt grammar place w remaining start := by
  induction branches with
  | nil => simp [BranchOffersAt]
  | cons branch branches ih => simp [BranchOffersAt, ih]

/-! ### The texts of the walk -/

theorem mem_branchOffers {remaining : Int} {branches : List Outline} {text : String} :
    text ∈ (branchOffers grammar remaining branches).texts ↔
      ∃ branch ∈ branches, text ∈ (branch.offers grammar remaining).texts := by
  induction branches with
  | nil => simp [branchOffers]
  | cons branch branches ih => simp [branchOffers, Offers.append, ih]

/-- The texts offered are those of the words offered somewhere, wherever the outline starts. -/
theorem mem_offers_iff {outline : Outline} (h : outline.Regular grammar root) (remaining : Int)
    (start : Nat) {text : String} :
    text ∈ (outline.offers grammar remaining).texts ↔
      ∃ place w, outline.OffersAt grammar place w remaining start ∧ text = w.rendered := by
  induction outline generalizing remaining start with
  | blank mark => exact h.elim
  | scope mark type => exact h.elim
  | deferred mark part => simp [offers, OffersAt]
  | word mark word =>
      obtain ⟨⟨hclosing, -⟩, hblock, htext⟩ := h
      by_cases hremaining : remaining = 0
      · subst hremaining
        simp [offers, OffersAt, pastQuery, hblock, htext, hclosing, Word.offered]
      · simp only [offers, OffersAt, hremaining, false_and, if_false, exists_false, iff_false]
        split <;> simp
  | choice mark branches ih =>
      have hreg := regularBranches_iff.1 h.2.2
      by_cases hpast : remaining = pastQuery
      · simp [offers, OffersAt, hpast]
      · simp only [offers, OffersAt, hpast, if_false, not_false_eq_true, true_and, ne_eq,
          mem_branchOffers, branchOffersAt_iff]
        constructor
        · rintro ⟨branch, hmem, htext⟩
          obtain ⟨place, w, hoffers, rfl⟩ := (ih branch hmem (hreg branch hmem) _ start).1 htext
          exact ⟨place, w, ⟨branch, hmem, hoffers⟩, rfl⟩
        · rintro ⟨place, w, ⟨branch, hmem, hoffers⟩, rfl⟩
          exact ⟨branch, hmem, (ih branch hmem (hreg branch hmem) _ start).2
            ⟨place, w, hoffers, rfl⟩⟩
  | sequence mark info parts ih =>
      have hreg := h.2.2.2.regular
      by_cases hpast : remaining = pastQuery
      · simp [offers, OffersAt, hpast]
      · simp only [offers, OffersAt, hpast, if_false, not_false_eq_true, true_and, ne_eq]
        clear h hpast
        induction parts generalizing remaining start with
        | nil => simp [partOffers, PartOffersAt]
        | cons part parts ihparts =>
            have hpart := List.mem_cons_self (a := part) (l := parts)
            have hfirst := ih part hpart (hreg part hpart) remaining start
            have hrest := ihparts (fun other hother => ih other (List.mem_cons_of_mem _ hother))
              (remaining - part.count) (start + part.extent grammar)
              (fun other hother => hreg other (List.mem_cons_of_mem _ hother))
            simp only [partOffers, Offers.append, List.mem_append, hfirst, hrest, PartOffersAt,
              or_and_right, exists_or]

/-! ### Places -/

/-- An offered word stands at its place in a word list of the outline. -/
theorem OffersAt.exists_yields (hg : grammar.PositionDetermined root) {outline : Outline}
    (hreg : outline.Regular grammar root) {remaining : Int} {start : Nat}
    (h : outline.OffersAt grammar place w remaining start) :
    ∃ words, outline.Yields grammar words ∧ start ≤ place ∧ words[place - start]? = some w := by
  induction outline generalizing remaining start with
  | blank mark => exact h.elim
  | scope mark type => exact h.elim
  | deferred mark part => exact h.elim
  | word mark word =>
      obtain ⟨-, rfl, rfl⟩ := h
      exact ⟨[word], rfl, le_rfl, by simp⟩
  | choice mark branches ih =>
      obtain ⟨branch, hmem, hbranch⟩ := branchOffersAt_iff.1 h.2
      obtain ⟨words, hwords, hplace⟩ := ih branch hmem (regularBranches_iff.1 hreg.2.2 branch hmem)
        hbranch
      exact ⟨words, yieldsAny_iff.2 ⟨branch, hmem, hwords⟩, hplace⟩
  | sequence mark info parts ih =>
      have hparts := hreg.2.2.2
      replace h := h.2
      simp only [Yields]
      clear hreg
      induction parts generalizing remaining start with
      | nil => exact h.elim
      | cons part parts ihparts =>
          obtain ⟨hpart, huniform, hrest⟩ := hparts
          obtain ⟨rest, hrestWords⟩ := exists_yieldsAll fun other hother =>
            (hrest.regular other hother).exists_yields hg
          obtain ⟨first, hfirstWords⟩ := hpart.exists_yields hg
          -- the parts without the word may contribute any of their word lists
          rcases h with h | h
          · obtain ⟨words, hwords, hle, hplace⟩ := ih part (List.mem_cons_self ..) hpart h
            refine ⟨words ++ rest, ⟨words, rest, rfl, hwords, hrestWords⟩, hle, ?_⟩
            rw [List.getElem?_append_left (List.getElem?_eq_some_iff.1 hplace).1]
            exact hplace
          · have hne : parts ≠ [] := by
              rintro rfl
              exact h
            obtain ⟨words, hwords, hle, hplace⟩ := ihparts
              (fun other hother => ih other (List.mem_cons_of_mem _ hother)) hrest h
            have hlength := (huniform hne).length_eq hfirstWords
            refine ⟨first ++ words, ⟨first, words, rfl, hfirstWords, hwords⟩, by omega, ?_⟩
            rw [List.getElem?_append_right (by omega), hlength, Nat.sub_sub]
            exact hplace

/-- A uniform part that ends at or before the limit it is expanded to counts its words right. -/
theorem Uniform.count_eq_of_expandedTo (hg : grammar.PositionDetermined root) {part : Outline}
    (huniform : part.Uniform grammar) (hreg : part.Regular grammar root) {limit start : Nat}
    (hexp : part.ExpandedTo grammar limit start) (hend : start + part.extent grammar ≤ limit) :
    part.count = part.extent grammar :=
  huniform.count_eq hreg (huniform.isExpanded_of_expandedTo hg hreg hexp hend)

/-- Every word at the place of the query is offered there. -/
theorem offersAt_of_yields (hg : grammar.PositionDetermined root) {outline : Outline}
    (hreg : outline.Regular grammar root) {start : Nat} (hstart : start ≤ place)
    (hexp : outline.ExpandedTo grammar (place + 1) start) {words : List Word}
    (hwords : outline.Yields grammar words) (hplace : words[place - start]? = some w) :
    outline.OffersAt grammar place w (place - start : Int) start := by
  induction outline generalizing start words with
  | blank mark => exact hreg.elim
  | scope mark type => exact hreg.elim
  | deferred mark part =>
      rw [ExpandedTo] at hexp
      omega
  | word mark word =>
      rw [Yields] at hwords
      subst hwords
      obtain ⟨hlt, hword⟩ := List.getElem?_eq_some_iff.1 hplace
      rw [List.length_singleton] at hlt
      rw [List.getElem_singleton] at hword
      exact ⟨by omega, by omega, hword⟩
  | choice mark branches ih =>
      obtain ⟨branch, hmem, hbranch⟩ := yieldsAny_iff.1 hwords
      refine ⟨by unfold pastQuery; omega, branchOffersAt_iff.2 ⟨branch, hmem, ?_⟩⟩
      exact ih branch hmem (regularBranches_iff.1 hreg.2.2 branch hmem) hstart
        (anyExpandedTo_iff.1 hexp branch hmem) hbranch hplace
  | sequence mark info parts ih =>
      refine ⟨by unfold pastQuery; omega, ?_⟩
      have hparts := hreg.2.2.2
      rw [ExpandedTo] at hexp
      rw [Yields] at hwords
      clear hreg
      induction parts generalizing start words with
      | nil =>
          rw [YieldsAll] at hwords
          simp [hwords] at hplace
      | cons part parts ihparts =>
          obtain ⟨hpart, huniform, hrest⟩ := hparts
          obtain ⟨first, rest, rfl, hfirst, hrestWords⟩ := hwords
          by_cases hlt : place - start < first.length
          · rw [List.getElem?_append_left hlt] at hplace
            exact .inl (ih part (List.mem_cons_self ..) hpart hstart hexp.1 hfirst hplace)
          · rw [List.getElem?_append_right (by omega)] at hplace
            have hne : parts ≠ [] := by
              rintro rfl
              rw [YieldsAll] at hrestWords
              simp [hrestWords] at hplace
            have hlength := (huniform hne).length_eq hfirst
            -- the part ends at or before the query, so the countdown takes its true length
            have hcount := (huniform hne).count_eq_of_expandedTo hg hpart hexp.1 (by omega)
            have hnext : (place : Int) - (start + part.extent grammar : Nat) =
                place - start - part.count := by omega
            refine .inr (hnext ▸ ihparts ?_ (by omega) hexp.2 hrestWords ?_ hrest)
            · intro other hother
              exact ih other (List.mem_cons_of_mem _ hother)
            · rw [← Nat.sub_sub, ← hlength]
              exact hplace

/-- As long as the walk is not beyond the place after `target`, its countdown is right. -/
def OnCourse (target : Nat) (remaining : Int) (start : Nat) : Prop :=
  start ≤ target + 1 → remaining = target - start

/-- A walk that starts on course offers words at the place of the query, and two or more places
after it; at the place right after the query it looks no further. -/
theorem OffersAt.place_eq_or_lt (hg : grammar.PositionDetermined root) {target : Nat}
    {outline : Outline} (hreg : outline.Regular grammar root) {remaining : Int} {start : Nat}
    (hexp : outline.ExpandedTo grammar (target + 1) start)
    (hcourse : OnCourse target remaining start)
    (h : outline.OffersAt grammar place w remaining start) :
    place = target ∨ target + 2 ≤ place := by
  induction outline generalizing remaining start with
  | blank mark => exact h.elim
  | scope mark type => exact h.elim
  | deferred mark part => exact h.elim
  | word mark word =>
      obtain ⟨hremaining, rfl, -⟩ := h
      unfold OnCourse at hcourse
      omega
  | choice mark branches ih =>
      obtain ⟨branch, hmem, hbranch⟩ := branchOffersAt_iff.1 h.2
      exact ih branch hmem (regularBranches_iff.1 hreg.2.2 branch hmem)
        (anyExpandedTo_iff.1 hexp branch hmem) hcourse hbranch
  | sequence mark info parts ih =>
      have hparts := hreg.2.2.2
      replace h := h.2
      rw [ExpandedTo] at hexp
      clear hreg
      induction parts generalizing remaining start with
      | nil => exact h.elim
      | cons part parts ihparts =>
          obtain ⟨hpart, huniform, hrest⟩ := hparts
          rcases h with h | h
          · exact ih part (List.mem_cons_self ..) hpart hexp.1 hcourse h
          · have hne : parts ≠ [] := by
              rintro rfl
              exact h
            refine ihparts (fun other hother => ih other (List.mem_cons_of_mem _ hother))
              hexp.2 ?_ hrest h
            -- beyond the place after the query nothing is asked of the countdown
            intro hend
            have hcount := (huniform hne).count_eq_of_expandedTo hg hpart hexp.1 hend
            have hremaining := hcourse (by omega)
            omega

/-- The number of words of every part before the last is known. -/
def InnerCounted : Outline → Prop
  | .sequence _ _ parts => ∀ part ∈ parts.dropLast, 0 ≤ part.count
  | .blank _ | .word _ _ | .deferred _ _ | .choice _ _ | .scope _ _ => True

/-- Unknown numbers of words are what leads the walk astray: without them it offers words at the
place of the query only. -/
theorem OffersAt.place_eq_of_innerCounted {target : Nat} {outline : Outline}
    (hreg : outline.Regular grammar root) (hcounted : outline.Everywhere InnerCounted)
    {remaining : Int} {start : Nat} (hremaining : remaining = target - start)
    (h : outline.OffersAt grammar place w remaining start) : place = target := by
  induction outline generalizing remaining start with
  | blank mark => exact h.elim
  | scope mark type => exact h.elim
  | deferred mark part => exact h.elim
  | word mark word =>
      obtain ⟨hzero, rfl, -⟩ := h
      omega
  | choice mark branches ih =>
      obtain ⟨branch, hmem, hbranch⟩ := branchOffersAt_iff.1 h.2
      exact ih branch hmem (regularBranches_iff.1 hreg.2.2 branch hmem)
        (allEverywhere_iff.1 hcounted.2 branch hmem) hremaining hbranch
  | sequence mark info parts ih =>
      have hparts := hreg.2.2.2
      obtain ⟨hcounts, hinner⟩ := hcounted
      rw [allEverywhere_iff] at hinner
      rw [InnerCounted] at hcounts
      replace h := h.2
      clear hreg
      induction parts generalizing remaining start with
      | nil => exact h.elim
      | cons part parts ihparts =>
          have hpart := List.mem_cons_self (a := part) (l := parts)
          obtain ⟨hpartReg, huniform, hrest⟩ := hparts
          rcases h with h | h
          · exact ih part hpart hpartReg (hinner part hpart) hremaining h
          · have hne : parts ≠ [] := by
              rintro rfl
              exact h
            rw [List.dropLast_cons_of_ne_nil hne] at hcounts
            have hcount := (huniform hne).count_eq_of_nonneg hpartReg
              (hcounts part (List.mem_cons_self ..))
            refine ihparts (fun other hother => ih other (List.mem_cons_of_mem _ hother)) ?_ hrest
              (fun other hother => hcounts other (List.mem_cons_of_mem _ hother))
              (fun other hother => hinner other (List.mem_cons_of_mem _ hother)) h
            omega

end Outline

end Typeahead
