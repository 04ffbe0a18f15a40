/-
The offers of an outline with known counts.

Where nothing is put off, marks give the right counts, and every part before the last of a sequence
has word lists of one length, the countdown of the walk is exact: a node that starts at a place is
visited with the words still to pass from there to the query, or passed since.  So the walk offers
the words at the place of the query and no others, in the order in which they stand in the outline,
and it meets a node right behind that place exactly if some word list goes on there.

Main definitions:

* `Typeahead.Outline.Counted` — the outlines in question;
* `Typeahead.Outline.placed` — the words of an outline, each with the place where it stands;
* `Typeahead.Outline.wordsAt` — the words that stand at a place.

Main results:

* `Typeahead.Outline.mem_placed_iff` — a word stands at a place if it does so in some word list;
* `Typeahead.Outline.offers_texts` — the walk offers the words at the place of the query;
* `Typeahead.Outline.offers_more_iff` — more is to be typed if some word list goes on behind it;
* `Typeahead.Outline.offers_of_counted` — both from the start of the outline.
-/

import Typeahead.Proofs.LastToken
import Typeahead.Proofs.PruningSafety

set_option relaxedAutoImplicit false
set_option autoImplicit false

namespace Typeahead

/-- No rule is a block of further commands. -/
def Grammar.BlockFree (grammar : Grammar) : Prop :=
  ∀ id body endKeyword, grammar.kind? id ≠ some (.block body endKeyword)

theorem Grammar.BlockFree.closing?_eq_none {grammar : Grammar} (h : grammar.BlockFree)
    (slot : Option Slot) : grammar.closing? slot = none := by
  refine Grammar.closing?_eq_none (fun id => ?_) slot
  rw [endKeyword?]
  split
  · next hkind => exact absurd hkind (h id _ _)
  · rfl

namespace Outline

variable {grammar : Grammar} {outline : Outline}

/-! ### Counted outlines -/

/-- If the node is a word, it has a text and does not stand for a block. -/
def HasText : Outline → Prop
  | .word _ w => w.isBlock = false ∧ w.text.isEmpty = false
  | .blank _ | .deferred _ _ | .sequence _ _ _ | .choice _ _ | .scope _ _ => True

/-- Words with texts in sequences and choices that are not empty, with right counts and with one
length for every part before the last of a sequence. -/
structure Counted (grammar : Grammar) (outline : Outline) : Prop where
  solid : outline.Everywhere IsSolid
  hasText : outline.Everywhere HasText
  counts : outline.Everywhere CountHolds
  steady : outline.Everywhere (Steady grammar)

theorem Counted.branch {mark : Mark} {branches : List Outline}
    (h : (Outline.choice mark branches).Counted grammar) {branch : Outline}
    (hbranch : branch ∈ branches) : branch.Counted grammar where
  solid := allEverywhere_iff.1 h.solid.2 branch hbranch
  hasText := allEverywhere_iff.1 h.hasText.2 branch hbranch
  counts := allEverywhere_iff.1 h.counts.2 branch hbranch
  steady := allEverywhere_iff.1 h.steady.2 branch hbranch

theorem Counted.part {mark : Mark} {info : SequenceInfo} {parts : List Outline}
    (h : (Outline.sequence mark info parts).Counted grammar) {part : Outline}
    (hpart : part ∈ parts) : part.Counted grammar where
  solid := allEverywhere_iff.1 h.solid.2 part hpart
  hasText := allEverywhere_iff.1 h.hasText.2 part hpart
  counts := allEverywhere_iff.1 h.counts.2 part hpart
  steady := allEverywhere_iff.1 h.steady.2 part hpart

/-- Some word list of a solid outline has its extent. -/
theorem exists_length_eq_extent (grammar : Grammar) (h : outline.Everywhere IsSolid) :
    ∃ words, outline.Yields grammar words ∧ words.length = outline.extent grammar := by
  induction outline with
  | blank mark => exact h.elim
  | scope mark type => exact h.elim
  | deferred mark part => exact h.elim
  | word mark w => exact ⟨[w], rfl, rfl⟩
  | sequence mark info parts ih =>
      have hparts := allEverywhere_iff.1 h.2
      clear h
      induction parts with
      | nil => exact ⟨[], rfl, rfl⟩
      | cons part parts ihparts =>
          obtain ⟨first, hfirst, hlength⟩ := ih part (List.mem_cons_self ..)
            (hparts part (List.mem_cons_self ..))
          obtain ⟨rest, hrest, hlengths⟩ := ihparts
            (fun other hother => ih other (List.mem_cons_of_mem _ hother))
            (fun other hother => hparts other (List.mem_cons_of_mem _ hother))
          refine ⟨first ++ rest, ⟨first, rest, rfl, hfirst, hrest⟩, ?_⟩
          rw [List.length_append, hlength, hlengths]
          rfl
  | choice mark branches ih =>
      obtain ⟨branch, rest, rfl⟩ := List.exists_cons_of_ne_nil h.1
      obtain ⟨words, hwords, hlength⟩ := ih branch (List.mem_cons_self ..) h.2.1
      exact ⟨words, .inl hwords, hlength⟩

theorem ne_nil_of_yields (h : outline.Everywhere IsSolid) {words : List Word}
    (hwords : outline.Yields grammar words) : words ≠ [] := by
  induction outline generalizing words with
  | blank mark => exact h.elim
  | scope mark type => exact h.elim
  | deferred mark part => exact h.elim
  | word mark w =>
      rw [Yields] at hwords
      simp [hwords]
  | sequence mark info parts ih =>
      obtain ⟨part, rest, rfl⟩ := List.exists_cons_of_ne_nil h.1
      obtain ⟨first, others, rfl, hfirst, -⟩ := hwords
      have hne := ih part (List.mem_cons_self ..) h.2.1 hfirst
      simp [hne]
  | choice mark branches ih =>
      obtain ⟨branch, hbranch, hyields⟩ := yieldsAny_iff.1 hwords
      exact ih branch hbranch (allEverywhere_iff.1 h.2 branch hbranch) hyields

/-- All word lists have the extent of the outline, and its count is that extent. -/
structure Fixed (grammar : Grammar) (outline : Outline) : Prop where
  length_eq : ∀ words, outline.Yields grammar words → words.length = outline.extent grammar
  count_eq : outline.count = outline.extent grammar

theorem Counted.fixed (h : outline.Counted grammar)
    (hlength : ∃ n, ∀ words, outline.Yields grammar words → words.length = n) :
    outline.Fixed grammar := by
  obtain ⟨n, hlength⟩ := hlength
  obtain ⟨words, hwords, hextent⟩ := exists_length_eq_extent grammar h.solid
  obtain ⟨others, hothers, hcount⟩ := exists_length_eq_count grammar h.solid h.counts
  have hn := hlength words hwords
  have hn' := hlength others hothers
  refine ⟨?_, by omega⟩
  intro words hwords
  rw [hlength words hwords, ← hn, hextent]

theorem Counted.fixed_of_mem_dropLast {mark : Mark} {info : SequenceInfo} {parts : List Outline}
    (h : (Outline.sequence mark info parts).Counted grammar) :
    ∀ part ∈ parts.dropLast, part.Fixed grammar := by
  intro part hpart
  exact (h.part (List.mem_of_mem_dropLast hpart)).fixed (h.steady.1 part hpart)

theorem exists_yieldsAll_of_counted {parts : List Outline}
    (h : ∀ part ∈ parts, part.Counted grammar) : ∃ words, YieldsAll grammar parts words :=
  exists_yieldsAll fun part hpart =>
    (exists_length_eq_extent grammar (h part hpart).solid).imp fun _ hwords => hwords.1

/-! ### Words and places -/

mutual

/-- The words of an outline from left to right, each with the place where it stands, in an outline
that itself starts at the given place. -/
noncomputable def placed (grammar : Grammar) : Nat → Outline → List (Nat × Word)
  | start, .word _ w => [(start, w)]
  | start, .sequence _ _ parts => placedParts grammar start parts
  | start, .choice _ branches => placedBranches grammar start branches
  | _, .blank _ | _, .deferred _ _ | _, .scope _ _ => []

/-- The words of parts that stand one after another. -/
noncomputable def placedParts (grammar : Grammar) : Nat → List Outline → List (Nat × Word)
  | _, [] => []
  | start, part :: parts =>
      placed grammar start part ++ placedParts grammar (start + part.extent grammar) parts

/-- The words of branches that all start at the same place. -/
noncomputable def placedBranches (grammar : Grammar) : Nat → List Outline → List (Nat × Word)
  | _, [] => []
  | start, branch :: branches =>
      placed grammar start branch ++ placedBranches grammar start branches

end

/-- The words that stand at a place, from left to right, in an outline that starts at the given
place. -/
noncomputable def wordsAt (grammar : Grammar) (place start : Nat) (outline : Outline) : List Word :=
  ((outline.placed grammar start).filter fun entry => entry.1 == place).map Prod.snd

theorem mem_placedBranches {start : Nat} {branches : List Outline} {entry : Nat × Word} :
    entry ∈ placedBranches grammar start branches ↔
      ∃ branch ∈ branches, entry ∈ branch.placed grammar start := by
  induction branches with
  | nil => simp [placedBranches]
  | cons branch branches ih => simp [placedBranches, ih]

theorem mem_placedParts_iff {start place : Nat} {w : Word} {parts : List Outline}
    (ih : ∀ part ∈ parts, ∀ start, (place, w) ∈ part.placed grammar start ↔
      start ≤ place ∧ ∃ words, part.Yields grammar words ∧ words[place - start]? = some w)
    (hcounted : ∀ part ∈ parts, part.Counted grammar)
    (hfixed : ∀ part ∈ parts.dropLast, part.Fixed grammar) :
    (place, w) ∈ placedParts grammar start parts ↔
      start ≤ place ∧ ∃ words, YieldsAll grammar parts words ∧ words[place - start]? = some w := by
  induction parts generalizing start with
  | nil => simp [placedParts, YieldsAll]
  | cons part parts ihparts =>
      obtain ⟨honly, hfixedRest⟩ := forall_mem_dropLast_cons.1 hfixed
      have htail := fun other hother => hcounted other (List.mem_cons_of_mem part hother)
      rw [placedParts, List.mem_append, ih part (List.mem_cons_self ..) start,
        ihparts (fun other hother => ih other (List.mem_cons_of_mem _ hother)) htail hfixedRest]
      constructor
      · rintro (⟨hle, words, hwords, hget⟩ | ⟨hle, words, hwords, hget⟩)
        · -- any words of the parts behind will do
          obtain ⟨rest, hrest⟩ := exists_yieldsAll_of_counted htail
          refine ⟨hle, words ++ rest, ⟨words, rest, rfl, hwords, hrest⟩, ?_⟩
          rw [List.getElem?_append_left (List.getElem?_eq_some_iff.1 hget).1]
          exact hget
        · obtain ⟨first, hfirst, hlength⟩ := exists_length_eq_extent grammar
            (hcounted part (List.mem_cons_self ..)).solid
          refine ⟨by omega, first ++ words, ⟨first, words, rfl, hfirst, hwords⟩, ?_⟩
          rw [List.getElem?_append_right (by omega), hlength, Nat.sub_sub]
          exact hget
      · rintro ⟨hle, _, ⟨first, rest, rfl, hfirst, hrest⟩, hget⟩
        by_cases hlt : place - start < first.length
        · rw [List.getElem?_append_left hlt] at hget
          exact .inl ⟨hle, first, hfirst, hget⟩
        · rw [List.getElem?_append_right (by omega)] at hget
          have hne : parts ≠ [] := by
            rintro rfl
            rw [YieldsAll] at hrest
            simp [hrest] at hget
          have hlength := (honly hne).length_eq first hfirst
          refine .inr ⟨by omega, rest, hrest, ?_⟩
          rw [← Nat.sub_sub, ← hlength]
          exact hget

/-- A word stands at a place if it does so in some word list. -/
theorem mem_placed_iff (h : outline.Counted grammar) {start place : Nat} {w : Word} :
    (place, w) ∈ outline.placed grammar start ↔
      start ≤ place ∧ ∃ words, outline.Yields grammar words ∧ words[place - start]? = some w := by
  induction outline generalizing start with
  | blank mark => exact h.solid.elim
  | scope mark type => exact h.solid.elim
  | deferred mark part => exact h.solid.elim
  | word mark found =>
      simp only [placed, Yields, List.mem_singleton, Prod.mk.injEq, exists_eq_left]
      constructor
      · rintro ⟨rfl, rfl⟩
        exact ⟨le_rfl, by simp⟩
      · rintro ⟨hle, hget⟩
        obtain ⟨hlt, hword⟩ := List.getElem?_eq_some_iff.1 hget
        rw [List.length_singleton] at hlt
        rw [List.getElem_singleton] at hword
        exact ⟨by omega, hword.symm⟩
  | choice mark branches ih =>
      rw [placed, mem_placedBranches]
      simp only [Yields, yieldsAny_iff]
      constructor
      · rintro ⟨branch, hbranch, hmem⟩
        obtain ⟨hle, words, hwords, hget⟩ := (ih branch hbranch (h.branch hbranch)).1 hmem
        exact ⟨hle, words, ⟨branch, hbranch, hwords⟩, hget⟩
      · rintro ⟨hle, words, ⟨branch, hbranch, hwords⟩, hget⟩
        exact ⟨branch, hbranch, (ih branch hbranch (h.branch hbranch)).2 ⟨hle, words, hwords, hget⟩⟩
  | sequence mark info parts ih =>
      rw [placed]
      exact mem_placedParts_iff (fun part hpart start => ih part hpart (h.part hpart))
        (fun part hpart => h.part hpart) h.fixed_of_mem_dropLast

theorem mem_wordsAt_iff (h : outline.Counted grammar) {start place : Nat} {w : Word} :
    w ∈ outline.wordsAt grammar place start ↔
      start ≤ place ∧ ∃ words, outline.Yields grammar words ∧ words[place - start]? = some w := by
  rw [← mem_placed_iff h, wordsAt]
  simp

/-- Before its start an outline has no words. -/
theorem wordsAt_eq_nil (h : outline.Counted grammar) {start place : Nat} (hlt : place < start) :
    outline.wordsAt grammar place start = [] := by
  refine List.eq_nil_iff_forall_not_mem.2 fun w hw => ?_
  obtain ⟨hle, -⟩ := (mem_wordsAt_iff h).1 hw
  omega

/-! ### The walk -/

/-- Right after the place of the query nothing is offered, and nothing stands there. -/
theorem offers_texts_of_past (h : outline.Counted grammar) {place start : Nat} {remaining : Int}
    (hremaining : remaining = place - start) (hpast : remaining = pastQuery) :
    (outline.offers grammar remaining).texts =
      (outline.wordsAt grammar place start).map Word.rendered := by
  have hnone : (outline.offers grammar pastQuery).texts = [] := by
    cases outline <;> simp [offers]
  rw [hpast, hnone, wordsAt_eq_nil h (by unfold pastQuery at hpast; omega)]
  rfl

theorem branchOffers_texts {remaining : Int} {place start : Nat} {branches : List Outline}
    (h : ∀ branch ∈ branches, (branch.offers grammar remaining).texts =
      (branch.wordsAt grammar place start).map Word.rendered) :
    (branchOffers grammar remaining branches).texts =
      (((placedBranches grammar start branches).filter fun entry => entry.1 == place).map
        Prod.snd).map Word.rendered := by
  induction branches with
  | nil => rfl
  | cons branch branches ih =>
      rw [branchOffers, placedBranches, List.filter_append, List.map_append, List.map_append,
        ← ih fun other hother => h other (List.mem_cons_of_mem _ hother), ← wordsAt,
        ← h branch (List.mem_cons_self ..)]
      rfl

theorem partOffers_texts {remaining : Int} {place start : Nat} {parts : List Outline}
    (ih : ∀ part ∈ parts, ∀ (start : Nat) (remaining : Int), remaining = place - start →
      (part.offers grammar remaining).texts =
        (part.wordsAt grammar place start).map Word.rendered)
    (hfixed : ∀ part ∈ parts.dropLast, part.Fixed grammar)
    (hremaining : remaining = place - start) :
    (partOffers grammar remaining parts).texts =
      (((placedParts grammar start parts).filter fun entry => entry.1 == place).map
        Prod.snd).map Word.rendered := by
  induction parts generalizing start remaining with
  | nil => rfl
  | cons part parts ihparts =>
      obtain ⟨honly, hfixedRest⟩ := forall_mem_dropLast_cons.1 hfixed
      have hrest : (partOffers grammar (remaining - part.count) parts).texts =
          (((placedParts grammar (start + part.extent grammar) parts).filter
            fun entry => entry.1 == place).map Prod.snd).map Word.rendered := by
        by_cases hmore : parts = []
        · subst hmore
          rfl
        · have hcount := (honly hmore).count_eq
          exact ihparts (fun other hother => ih other (List.mem_cons_of_mem _ hother)) hfixedRest
            (by omega)
      rw [partOffers, placedParts, List.filter_append, List.map_append, List.map_append, ← hrest,
        ← wordsAt, ← ih part (List.mem_cons_self ..) start remaining hremaining]
      rfl

/-- The walk offers the words that stand at the place of the query, from left to right. -/
theorem offers_texts (hclosing : ∀ slot, grammar.closing? slot = none)
    (h : outline.Counted grammar) {place start : Nat} {remaining : Int}
    (hremaining : remaining = place - start) :
    (outline.offers grammar remaining).texts =
      (outline.wordsAt grammar place start).map Word.rendered := by
  induction outline generalizing start remaining with
  | blank mark => exact h.solid.elim
  | scope mark type => exact h.solid.elim
  | deferred mark part => exact h.solid.elim
  | word mark w =>
      obtain ⟨hblock, htext⟩ := h.hasText
      by_cases hplace : start = place
      · have hzero : remaining = 0 := by omega
        simp [offers, hzero, pastQuery, hblock, htext, hclosing, Word.offered, wordsAt, placed,
          hplace]
      · have hzero : remaining ≠ 0 := by omega
        simp only [offers, hzero, false_and, if_false, wordsAt, placed]
        split <;> simp [hplace]
  | choice mark branches ih =>
      by_cases hpast : remaining = pastQuery
      · exact offers_texts_of_past h hremaining hpast
      · rw [offers, if_neg hpast, wordsAt, placed]
        refine branchOffers_texts fun branch hbranch => ?_
        exact ih branch hbranch (h.branch hbranch) hremaining
  | sequence mark info parts ih =>
      by_cases hpast : remaining = pastQuery
      · exact offers_texts_of_past h hremaining hpast
      · rw [offers, if_neg hpast, wordsAt, placed]
        refine partOffers_texts ?_ h.fixed_of_mem_dropLast hremaining
        exact fun part hpart start remaining => ih part hpart (h.part hpart)

/-- Right after the place of the query more is to be typed, and there is a word to type. -/
theorem offers_more_of_past (h : outline.Counted grammar) {place start : Nat} {remaining : Int}
    (hremaining : remaining = place - start) (hpast : remaining = pastQuery) :
    (outline.offers grammar remaining).more = true ↔
      start ≤ place + 1 ∧ ∃ words, outline.Yields grammar words ∧
        place + 1 < start + words.length := by
  have hmore : (outline.offers grammar pastQuery).more = true := by
    cases outline with
    | blank mark => exact h.solid.elim
    | scope mark type => exact h.solid.elim
    | deferred mark part => exact h.solid.elim
    | word mark w => simp [offers, h.hasText.1]
    | sequence | choice => simp [offers]
  obtain ⟨words, hwords, -⟩ := exists_length_eq_extent grammar h.solid
  have hpos := List.length_pos_iff.2 (ne_nil_of_yields h.solid hwords)
  have hstart : start = place + 1 := by
    unfold pastQuery at hpast
    omega
  exact iff_of_true (hpast ▸ hmore) ⟨hstart.le, words, hwords, by omega⟩

theorem partOffers_more_iff {remaining : Int} {place start : Nat} {parts : List Outline}
    (ih : ∀ part ∈ parts, ∀ (start : Nat) (remaining : Int), remaining = place - start →
      ((part.offers grammar remaining).more = true ↔
        start ≤ place + 1 ∧ ∃ words, part.Yields grammar words ∧
          place + 1 < start + words.length))
    (hcounted : ∀ part ∈ parts, part.Counted grammar)
    (hfixed : ∀ part ∈ parts.dropLast, part.Fixed grammar)
    (hremaining : remaining = place - start) :
    (partOffers grammar remaining parts).more = true ↔
      start ≤ place + 1 ∧ ∃ words, YieldsAll grammar parts words ∧
        place + 1 < start + words.length := by
  induction parts generalizing start remaining with
  | nil =>
      simp only [partOffers, YieldsAll, exists_eq_left, List.length_nil, Bool.false_eq_true,
        false_iff]
      omega
  | cons part parts ihparts =>
      obtain ⟨honly, hfixedRest⟩ := forall_mem_dropLast_cons.1 hfixed
      have htail := fun other hother => hcounted other (List.mem_cons_of_mem part hother)
      have hrest : parts ≠ [] → ((partOffers grammar (remaining - part.count) parts).more = true ↔
          start + part.extent grammar ≤ place + 1 ∧ ∃ words, YieldsAll grammar parts words ∧
            place + 1 < start + part.extent grammar + words.length) := by
        intro hne
        have hcount := (honly hne).count_eq
        exact ihparts (fun other hother => ih other (List.mem_cons_of_mem _ hother)) htail
          hfixedRest (by omega)
      rw [partOffers_more_cons, ih part (List.mem_cons_self ..) start remaining hremaining]
      constructor
      · rintro (⟨hle, first, hfirst, hlt⟩ | hmore)
        · -- whatever follows only makes the word list longer
          obtain ⟨rest, hrestWords⟩ := exists_yieldsAll_of_counted htail
          refine ⟨hle, first ++ rest, ⟨first, rest, rfl, hfirst, hrestWords⟩, ?_⟩
          rw [List.length_append]
          omega
        · have hne : parts ≠ [] := by
            rintro rfl
            cases hmore
          obtain ⟨hle, rest, hrestWords, hlt⟩ := (hrest hne).1 hmore
          obtain ⟨first, hfirst, hlength⟩ := exists_length_eq_extent grammar
            (hcounted part (List.mem_cons_self ..)).solid
          refine ⟨by omega, first ++ rest, ⟨first, rest, rfl, hfirst, hrestWords⟩, ?_⟩
          rw [List.length_append]
          omega
      · rintro ⟨hle, _, ⟨first, rest, rfl, hfirst, hrestWords⟩, hlt⟩
        rw [List.length_append] at hlt
        by_cases hreach : place + 1 < start + first.length
        · exact .inl ⟨hle, first, hfirst, hreach⟩
        · have hne : parts ≠ [] := by
            rintro rfl
            rw [YieldsAll] at hrestWords
            rw [hrestWords, List.length_nil] at hlt
            omega
          have hlength := (honly hne).length_eq first hfirst
          exact .inr ((hrest hne).2 ⟨by omega, rest, hrestWords, by omega⟩)

/-- The walk says that more is to be typed exactly if some word list goes on behind the place of the
query.  An outline that starts two or more places behind it has no say. -/
theorem offers_more_iff (h : outline.Counted grammar) {place start : Nat} {remaining : Int}
    (hremaining : remaining = place - start) :
    (outline.offers grammar remaining).more = true ↔
      start ≤ place + 1 ∧ ∃ words, outline.Yields grammar words ∧
        place + 1 < start + words.length := by
  induction outline generalizing start remaining with
  | blank mark => exact h.solid.elim
  | scope mark type => exact h.solid.elim
  | deferred mark part => exact h.solid.elim
  | word mark w =>
      by_cases hpast : remaining = pastQuery
      · exact offers_more_of_past h hremaining hpast
      · have hsilent : (offers grammar remaining (.word mark w)).more = false := by
          rw [offers, if_neg hpast]
          split <;> rfl
        simp only [hsilent, Yields, exists_eq_left, List.length_singleton, Bool.false_eq_true,
          false_iff]
        unfold pastQuery at hpast
        omega
  | choice mark branches ih =>
      by_cases hpast : remaining = pastQuery
      · exact offers_more_of_past h hremaining hpast
      · rw [offers, if_neg hpast, branchOffers_more]
        simp only [Yields, yieldsAny_iff]
        constructor
        · rintro ⟨branch, hbranch, hmore⟩
          obtain ⟨hle, words, hwords, hlt⟩ :=
            (ih branch hbranch (h.branch hbranch) hremaining).1 hmore
          exact ⟨hle, words, ⟨branch, hbranch, hwords⟩, hlt⟩
        · rintro ⟨hle, words, ⟨branch, hbranch, hwords⟩, hlt⟩
          exact ⟨branch, hbranch, (ih branch hbranch (h.branch hbranch) hremaining).2
            ⟨hle, words, hwords, hlt⟩⟩
  | sequence mark info parts ih =>
      by_cases hpast : remaining = pastQuery
      · exact offers_more_of_past h hremaining hpast
      · rw [offers, if_neg hpast]
        refine partOffers_more_iff ?_ (fun part hpart => h.part hpart) h.fixed_of_mem_dropLast
          hremaining
        exact fun part hpart start remaining => ih part hpart (h.part hpart)

/-- Without blocks, the walk over a counted outline offers exactly the words that stand at the place
of the query, from left to right, and says that more is to be typed exactly if some word list goes
on behind it.  The words at a place are those that stand there in some word list. -/
theorem offers_of_counted (hblocks : grammar.BlockFree) (h : outline.Counted grammar)
    (place : Nat) :
    (outline.offers grammar place).texts =
      (outline.wordsAt grammar place 0).map Word.rendered ∧
    ((outline.offers grammar place).more = true ↔
      ∃ words, outline.Yields grammar words ∧ place + 1 < words.length) ∧
    ∀ w, w ∈ outline.wordsAt grammar place 0 ↔
      ∃ words, outline.Yields grammar words ∧ words[place]? = some w := by
  have hremaining : (place : Int) = place - (0 : Nat) := by omega
  refine ⟨offers_texts hblocks.closing?_eq_none h hremaining, ?_, ?_⟩
  · simpa using offers_more_iff h hremaining
  · intro w
    rw [mem_wordsAt_iff h]
    simp

/-- The word `set`, then `on` or `off`, and then `now` or `at` with a time.  The first choice is
complete. -/
def switchOutline : Outline :=
  .sequence {} {} [.ofWord (.literal "set"),
    .choice (Mark.settle {} 1) [.ofWord (.literal "on"), .ofWord (.literal "off")],
    .choice {} [.ofWord (.literal "now"),
      .sequence {} {} [.ofWord (.literal "at"), .ofWord (.pattern "<time>")]]]

theorem counted_switchOutline : switchOutline.Counted Language.nestedLanguage.grammar := by
  have hopen := closing_countHolds.incomplete
  have hword : ∀ w : Word, ∃ n, ∀ words,
      (Outline.ofWord w).Yields Language.nestedLanguage.grammar words → words.length = n :=
    fun w => ⟨1, by rintro words rfl; rfl⟩
  refine ⟨?_, ?_, ?_, ?_⟩
  · simp [switchOutline, Everywhere, AllEverywhere, IsSolid, ofWord, fill]
  · simp [switchOutline, Everywhere, AllEverywhere, HasText, ofWord, fill, Word.literal,
      Word.pattern]
  · exact ⟨hopen _ rfl, fun _ => rfl, ⟨fun _ => rfl, fun _ => rfl, fun _ => rfl, trivial⟩,
      ⟨hopen _ rfl, fun _ => rfl, ⟨hopen _ rfl, fun _ => rfl, fun _ => rfl, trivial⟩, trivial⟩,
      trivial⟩
  · refine ⟨?_, trivial, ⟨trivial, trivial, trivial, trivial⟩,
      ⟨trivial, trivial, ⟨?_, trivial, trivial, trivial⟩, trivial⟩, trivial⟩
    · intro part hpart
      rcases List.mem_pair.1 hpart with rfl | rfl
      · exact hword _
      · refine ⟨1, ?_⟩
        rintro words (rfl | rfl | hnone)
        · rfl
        · rfl
        · exact hnone.elim
    · intro part hpart
      rw [List.mem_singleton.1 hpart]
      exact hword _

/-- At the third place stand `now` and `at`, and a time may follow. -/
theorem offers_of_counted_switchOutline :
    Language.nestedLanguage.grammar.BlockFree ∧
      switchOutline.Counted Language.nestedLanguage.grammar ∧
      (switchOutline.offers Language.nestedLanguage.grammar 2).texts =
        [Word.literal "now", Word.literal "at"].map Word.rendered ∧
      (switchOutline.offers Language.nestedLanguage.grammar 2).more = true := by
  have hblocks : Language.nestedLanguage.grammar.BlockFree := by
    rintro ⟨_ | _ | _ | _ | _ | _ | _ | index⟩ body endKeyword hkind <;> cases hkind
  obtain ⟨htexts, hmore, -⟩ := offers_of_counted hblocks counted_switchOutline 2
  refine ⟨hblocks, counted_switchOutline, htexts, hmore.2 ?_⟩
  exact ⟨[.literal "set", .literal "on", .literal "at", .pattern "<time>"],
    ⟨[.literal "set"], _, rfl, rfl, [.literal "on"], _, rfl, .inl rfl,
      [.literal "at", .pattern "<time>"], [], rfl,
      .inr (.inl ⟨[.literal "at"], _, rfl, rfl, [.pattern "<time>"], [], rfl, rfl, rfl⟩), rfl⟩,
    by decide⟩

end Outline

end Typeahead
