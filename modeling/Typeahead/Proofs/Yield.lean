/-
The language of an outline.

An outline yields word lists just as a rule derives them; a part that is put off yields what its
rule derives.  Unfolding and pruning are judged by what they do to these word lists.

For a position-determined grammar the outlines have a shape of their own.  A node is *uniform* when
everything in it has one length, its `extent`, and when no complete mark in it says otherwise; it is
*regular* when it is made of plain words, put off rules, sequences whose parts before the last are
uniform, and choices.  A node is *expanded to a place* when nothing that starts before that place is
put off.

Main definitions:

* `Typeahead.Outline.Yields` — the word lists of an outline;
* `Typeahead.Outline.extent`, `Typeahead.Outline.Uniform` — the length of an outline;
* `Typeahead.Outline.isExpanded`, `Typeahead.Outline.ExpandedTo` — how far an outline is unfolded;
* `Typeahead.Outline.Regular` — the outlines of a position-determined grammar.

Main results:

* `Typeahead.Outline.Uniform.length_eq` — all word lists of a uniform outline have its length;
* `Typeahead.Outline.Regular.exists_yields` — a regular outline yields some word list;
* `Typeahead.Outline.Uniform.count_eq` — an expanded uniform outline counts its words right;
* `Typeahead.Outline.Regular.isExpanded_of_count` — a count that is known belongs to an expanded
  outline.
-/

import Typeahead.Outline.Offers
import Typeahead.Proofs.Derivation

set_option relaxedAutoImplicit false
set_option autoImplicit false

namespace Typeahead

/-- A slot that changes nothing about the word in it: no load takes its type from the word, and the
word opens no block. -/
def Grammar.PlainSlot (grammar : Grammar) (slot : Option Slot) : Prop :=
  grammar.closing? slot = none ∧ slot.bind grammar.loadFrom? = none

namespace Outline

/-! ### Word lists -/

mutual

/-- The word lists of an outline. -/
def Yields (grammar : Grammar) : Outline → List Word → Prop
  | .word _ w, words => words = [w]
  | .deferred _ part, words => ∃ id, part.rule = some id ∧ grammar.Derives id words
  | .sequence _ _ parts, words => YieldsAll grammar parts words
  | .choice _ branches, words => YieldsAny grammar branches words
  | .blank _, _ | .scope _ _, _ => False

/-- The concatenations of the word lists of the parts. -/
def YieldsAll (grammar : Grammar) : List Outline → List Word → Prop
  | [], words => words = []
  | part :: parts, words =>
      ∃ first rest, words = first ++ rest ∧ Yields grammar part first ∧
        YieldsAll grammar parts rest

/-- The word lists of any branch. -/
def YieldsAny (grammar : Grammar) : List Outline → List Word → Prop
  | [], _ => False
  | branch :: branches, words => Yields grammar branch words ∨ YieldsAny grammar branches words

end

variable {grammar : Grammar} {root : RuleId}

theorem exists_yieldsAll {parts : List Outline}
    (h : ∀ part ∈ parts, ∃ words, part.Yields grammar words) :
    ∃ words, YieldsAll grammar parts words := by
  induction parts with
  | nil => exact ⟨[], rfl⟩
  | cons part parts ih =>
      obtain ⟨first, hfirst⟩ := h part (List.mem_cons_self ..)
      obtain ⟨rest, hrest⟩ := ih fun other hother => h other (List.mem_cons_of_mem _ hother)
      exact ⟨first ++ rest, first, rest, rfl, hfirst, hrest⟩

theorem yieldsAny_iff {branches : List Outline} {words : List Word} :
    YieldsAny grammar branches words ↔ ∃ branch ∈ branches, branch.Yields grammar words := by
  induction branches with
  | nil => simp [YieldsAny]
  | cons branch branches ih => simp [YieldsAny, ih]

/-! ### Lengths -/

mutual

/-- The number of words of an outline, as far as there is only one. -/
noncomputable def extent (grammar : Grammar) : Outline → Nat
  | .word _ _ => 1
  | .deferred _ part => part.rule.elim 0 grammar.ruleLength
  | .sequence _ _ parts => extentAll grammar parts
  | .choice _ branches => extentAny grammar branches
  | .blank _ | .scope _ _ => 0

/-- The number of words of all parts together. -/
noncomputable def extentAll (grammar : Grammar) : List Outline → Nat
  | [] => 0
  | part :: parts => extent grammar part + extentAll grammar parts

/-- The number of words of the first branch. -/
noncomputable def extentAny (grammar : Grammar) : List Outline → Nat
  | [] => 0
  | branch :: _ => extent grammar branch

end

mutual

/-- Everything in the outline has one length, and complete marks agree with it. -/
def Uniform (grammar : Grammar) : Outline → Prop
  | .word mark _ => mark.complete = true → mark.wordCount = 1
  | .deferred _ part =>
      ∀ id, part.rule = some id → grammar.HasLength id (grammar.ruleLength id)
  | .sequence mark _ parts =>
      (mark.complete = true → mark.wordCount = extentAll grammar parts) ∧
        UniformAll grammar parts
  | .choice mark branches =>
      (mark.complete = true → mark.wordCount = extentAny grammar branches) ∧
        UniformAny grammar (extentAny grammar branches) branches
  | .blank _ | .scope _ _ => False

/-- All parts are uniform. -/
def UniformAll (grammar : Grammar) : List Outline → Prop
  | [] => True
  | part :: parts => Uniform grammar part ∧ UniformAll grammar parts

/-- All branches are uniform, and of the same length. -/
def UniformAny (grammar : Grammar) : Nat → List Outline → Prop
  | _, [] => True
  | n, branch :: branches =>
      Uniform grammar branch ∧ extent grammar branch = n ∧ UniformAny grammar n branches

end

theorem uniformAll_iff {parts : List Outline} :
    UniformAll grammar parts ↔ ∀ part ∈ parts, part.Uniform grammar := by
  induction parts with
  | nil => simp [UniformAll]
  | cons part parts ih => simp [UniformAll, ih]

theorem uniformAny_iff {n : Nat} {branches : List Outline} :
    UniformAny grammar n branches ↔
      ∀ branch ∈ branches, branch.Uniform grammar ∧ branch.extent grammar = n := by
  induction branches with
  | nil => simp [UniformAny]
  | cons branch branches ih => simp [UniformAny, ih, and_assoc]

/-- All word lists of a uniform outline have its length. -/
theorem Uniform.length_eq {outline : Outline} (h : outline.Uniform grammar) {words : List Word}
    (hwords : outline.Yields grammar words) : words.length = outline.extent grammar := by
  induction outline generalizing words with
  | blank mark => exact h.elim
  | scope mark type => exact h.elim
  | word mark w =>
      rw [Yields] at hwords
      simp [hwords, extent]
  | deferred mark part =>
      obtain ⟨id, hid, hderives⟩ := hwords
      simp [extent, hid, h id hid words hderives]
  | sequence mark info parts ih =>
      obtain ⟨-, hparts⟩ := h
      rw [Yields] at hwords
      rw [extent]
      induction parts generalizing words with
      | nil => simp [show words = [] from hwords, extentAll]
      | cons part parts ihparts =>
          obtain ⟨first, rest, rfl, hfirst, hrest⟩ := hwords
          have hf := ih part (List.mem_cons_self ..) hparts.1 hfirst
          have hr := ihparts (fun other hother => ih other (List.mem_cons_of_mem _ hother))
            hrest hparts.2
          rw [List.length_append, hf, hr, extentAll]
  | choice mark branches ih =>
      obtain ⟨branch, hmem, hbranch⟩ := yieldsAny_iff.1 hwords
      obtain ⟨huniform, hextent⟩ := uniformAny_iff.1 h.2 branch hmem
      rw [ih branch hmem huniform hbranch, hextent, extent]

/-! ### Unfolded outlines -/

mutual

/-- Nothing in the outline is put off. -/
def isExpanded : Outline → Bool
  | .deferred _ _ => false
  | .sequence _ _ children | .choice _ children => allExpanded children
  | .blank _ | .word _ _ | .scope _ _ => true

/-- Nothing in any of the outlines is put off. -/
def allExpanded : List Outline → Bool
  | [] => true
  | child :: children => isExpanded child && allExpanded children

end

theorem allExpanded_iff {children : List Outline} :
    allExpanded children = true ↔ ∀ child ∈ children, child.isExpanded = true := by
  induction children with
  | nil => simp [allExpanded]
  | cons child children ih => simp [allExpanded, ih]

mutual

/-- Nothing that starts before place `limit` is put off, in an outline that itself starts at the
given place. -/
def ExpandedTo (grammar : Grammar) (limit : Nat) : Nat → Outline → Prop
  | start, .deferred _ _ => limit ≤ start
  | start, .sequence _ _ parts => AllExpandedTo grammar limit start parts
  | start, .choice _ branches => AnyExpandedTo grammar limit start branches
  | _, .blank _ | _, .word _ _ | _, .scope _ _ => True

/-- The same for parts that stand one after another. -/
def AllExpandedTo (grammar : Grammar) (limit : Nat) : Nat → List Outline → Prop
  | _, [] => True
  | start, part :: parts =>
      ExpandedTo grammar limit start part ∧
        AllExpandedTo grammar limit (start + extent grammar part) parts

/-- The same for branches that all start at the same place. -/
def AnyExpandedTo (grammar : Grammar) (limit : Nat) : Nat → List Outline → Prop
  | _, [] => True
  | start, branch :: branches =>
      ExpandedTo grammar limit start branch ∧ AnyExpandedTo grammar limit start branches

end

theorem anyExpandedTo_iff {limit start : Nat} {branches : List Outline} :
    AnyExpandedTo grammar limit start branches ↔
      ∀ branch ∈ branches, branch.ExpandedTo grammar limit start := by
  induction branches with
  | nil => simp [AnyExpandedTo]
  | cons branch branches ih => simp [AnyExpandedTo, ih]

/-- What starts at or after the limit counts as expanded, whatever it is. -/
theorem expandedTo_of_le {limit start : Nat} (h : limit ≤ start) (outline : Outline) :
    outline.ExpandedTo grammar limit start := by
  induction outline generalizing start with
  | blank | word | scope => trivial
  | deferred mark part => exact h
  | sequence mark info parts ih =>
      rw [ExpandedTo]
      induction parts generalizing start with
      | nil => trivial
      | cons part parts ihparts =>
          exact ⟨ih part (List.mem_cons_self ..) h,
            ihparts (fun other hother _ hle => ih other (List.mem_cons_of_mem _ hother) hle)
              (by omega)⟩
  | choice mark branches ih =>
      exact anyExpandedTo_iff.2 fun branch hmem => ih branch hmem h

theorem allExpandedTo_of_le {limit start : Nat} (h : limit ≤ start) (parts : List Outline) :
    AllExpandedTo grammar limit start parts :=
  expandedTo_of_le h (.sequence {} {} parts)

/-- An outline with nothing put off is expanded to every place. -/
theorem expandedTo_of_isExpanded {outline : Outline} (h : outline.isExpanded = true)
    (limit start : Nat) : outline.ExpandedTo grammar limit start := by
  induction outline generalizing start with
  | blank | word | scope => trivial
  | deferred mark part => simp [isExpanded] at h
  | sequence mark info parts ih =>
      rw [isExpanded, allExpanded_iff] at h
      rw [ExpandedTo]
      induction parts generalizing start with
      | nil => trivial
      | cons part parts ihparts =>
          have hpart := List.mem_cons_self (a := part) (l := parts)
          exact ⟨ih part hpart (h part hpart) start,
            ihparts (fun other hother => ih other (List.mem_cons_of_mem _ hother))
              (fun other hother => h other (List.mem_cons_of_mem _ hother)) _⟩
  | choice mark branches ih =>
      rw [isExpanded, allExpanded_iff] at h
      exact anyExpandedTo_iff.2 fun branch hmem => ih branch hmem (h branch hmem) start

/-! ### Regular outlines -/

mutual

/-- The outlines that unfolding and pruning a position-determined grammar lead to. -/
def Regular (grammar : Grammar) (root : RuleId) : Outline → Prop
  | .word mark w => grammar.PlainSlot mark.slot ∧ w.isBlock = false ∧ w.text.isEmpty = false
  | .deferred mark part =>
      grammar.PlainSlot mark.slot ∧ mark.complete = false ∧ part.reference = none ∧
        ∃ id, part.rule = some id ∧ grammar.Reaches root id
  | .sequence mark info parts =>
      (∃ id children, grammar.Reaches root id ∧
        grammar.kind? id = some (.sequence children info.singleToken false)) ∧
      parts ≠ [] ∧ (mark.complete = true → allExpanded parts = true) ∧
        RegularParts grammar root parts
  | .choice mark branches =>
      branches ≠ [] ∧ (mark.complete = true → allExpanded branches = true) ∧
        RegularBranches grammar root branches
  | .blank _ | .scope _ _ => False

/-- Regular parts, uniform up to the last one. -/
def RegularParts (grammar : Grammar) (root : RuleId) : List Outline → Prop
  | [] => True
  | part :: parts =>
      Regular grammar root part ∧ (parts ≠ [] → Uniform grammar part) ∧
        RegularParts grammar root parts

/-- Regular branches. -/
def RegularBranches (grammar : Grammar) (root : RuleId) : List Outline → Prop
  | [] => True
  | branch :: branches => Regular grammar root branch ∧ RegularBranches grammar root branches

end

theorem regularBranches_iff {branches : List Outline} :
    RegularBranches grammar root branches ↔ ∀ branch ∈ branches, branch.Regular grammar root := by
  induction branches with
  | nil => simp [RegularBranches]
  | cons branch branches ih => simp [RegularBranches, ih]

theorem RegularParts.regular {parts : List Outline} (h : RegularParts grammar root parts) :
    ∀ part ∈ parts, part.Regular grammar root := by
  induction parts with
  | nil => simp
  | cons part parts ih =>
      intro other hother
      rcases List.mem_cons.1 hother with rfl | hother
      · exact h.1
      · exact ih h.2.2 other hother

/-- A regular outline yields some word list. -/
theorem Regular.exists_yields (hg : grammar.PositionDetermined root) {outline : Outline}
    (h : outline.Regular grammar root) : ∃ words, outline.Yields grammar words := by
  induction outline with
  | blank mark => exact h.elim
  | scope mark type => exact h.elim
  | word mark w => exact ⟨[w], rfl⟩
  | deferred mark part =>
      obtain ⟨-, -, -, id, hid, hreach⟩ := h
      obtain ⟨words, hwords⟩ := hg.exists_derives hreach
      exact ⟨words, id, hid, hwords⟩
  | sequence mark info parts ih =>
      exact exists_yieldsAll fun part hmem => ih part hmem (h.2.2.2.regular part hmem)
  | choice mark branches ih =>
      obtain ⟨hne, -, hbranches⟩ := h
      obtain ⟨branch, hmem⟩ := List.exists_mem_of_ne_nil _ hne
      obtain ⟨words, hwords⟩ := ih branch hmem (regularBranches_iff.1 hbranches branch hmem)
      exact ⟨words, yieldsAny_iff.2 ⟨branch, hmem, hwords⟩⟩

/-! ### Counts -/

theorem count_nonneg_of_sumCounts {parts : List Outline} (h : 0 ≤ sumCounts parts) :
    ∀ part ∈ parts, 0 ≤ part.count := by
  induction parts with
  | nil => simp
  | cons part parts ih =>
      rw [sumCounts] at h
      have hfirst : 0 ≤ part.count := by
        by_contra hneg
        simp only [if_pos (not_le.1 hneg)] at h
        omega
      have hrest : 0 ≤ sumCounts parts := by
        by_contra hneg
        simp only [if_neg (not_lt.2 hfirst), if_pos (not_le.1 hneg)] at h
        omega
      intro other hother
      rcases List.mem_cons.1 hother with rfl | hother
      · exact hfirst
      · exact ih hrest other hother

theorem count_nonneg_of_maxCounts {branches : List Outline} (h : 0 ≤ maxCounts branches) :
    ∀ branch ∈ branches, 0 ≤ branch.count := by
  induction branches with
  | nil => simp
  | cons branch branches ih =>
      rw [maxCounts] at h
      have hfirst : 0 ≤ branch.count := by
        by_contra hneg
        simp only [if_pos (not_le.1 hneg)] at h
        omega
      have hrest : 0 ≤ maxCounts branches := by
        by_contra hneg
        simp only [if_neg (not_lt.2 hfirst), if_pos (not_le.1 hneg)] at h
        omega
      intro other hother
      rcases List.mem_cons.1 hother with rfl | hother
      · exact hfirst
      · exact ih hrest other hother

theorem sumCounts_eq_extentAll {parts : List Outline}
    (h : ∀ part ∈ parts, part.count = part.extent grammar) :
    sumCounts parts = extentAll grammar parts := by
  induction parts with
  | nil => rfl
  | cons part parts ih =>
      have hfirst := h part (List.mem_cons_self ..)
      have hrest := ih fun other hother => h other (List.mem_cons_of_mem _ hother)
      simp only [sumCounts, extentAll, hfirst, hrest]
      rw [if_neg (by omega), if_neg (by omega), Int.natCast_add]

theorem maxCounts_eq {n : Nat} {branches : List Outline} (hne : branches ≠ [])
    (h : ∀ branch ∈ branches, branch.count = n) : maxCounts branches = n := by
  induction branches with
  | nil => exact absurd rfl hne
  | cons branch branches ih =>
      have hfirst := h branch (List.mem_cons_self ..)
      simp only [maxCounts, hfirst]
      rw [if_neg (by omega)]
      by_cases hnil : branches = []
      · subst hnil
        simp [maxCounts]
      · have hrest := ih hnil fun other hother => h other (List.mem_cons_of_mem _ hother)
        rw [hrest, if_neg (by omega), max_self]

/-- A count that is known belongs to an expanded outline. -/
theorem Regular.isExpanded_of_count {outline : Outline} (h : outline.Regular grammar root)
    (hcount : 0 ≤ outline.count) : outline.isExpanded = true := by
  induction outline with
  | blank mark => exact h.elim
  | scope mark type => exact h.elim
  | word mark w => rfl
  | deferred mark part =>
      simp [count, h.2.1, unknownCount] at hcount
  | sequence mark info parts ih =>
      -- either the mark says so, or the counts of all parts are known
      obtain ⟨-, -, hcomplete, hparts⟩ := h
      cases hmark : mark.complete with
      | true => exact hcomplete hmark
      | false =>
          simp only [count, hmark, Bool.false_eq_true, if_false] at hcount
          apply allExpanded_iff.2
          intro part hmem
          exact ih part hmem (hparts.regular part hmem) (count_nonneg_of_sumCounts hcount part hmem)
  | choice mark branches ih =>
      obtain ⟨-, hcomplete, hbranches⟩ := h
      cases hmark : mark.complete with
      | true => exact hcomplete hmark
      | false =>
          simp only [count, hmark, Bool.false_eq_true, if_false] at hcount
          apply allExpanded_iff.2
          intro branch hmem
          exact ih branch hmem (regularBranches_iff.1 hbranches branch hmem)
            (count_nonneg_of_maxCounts hcount branch hmem)

/-- An expanded uniform outline counts its words right. -/
theorem Uniform.count_eq {outline : Outline} (hreg : outline.Regular grammar root)
    (h : outline.Uniform grammar) (hexp : outline.isExpanded = true) :
    outline.count = outline.extent grammar := by
  induction outline with
  | blank mark => exact h.elim
  | scope mark type => exact h.elim
  | word mark w =>
      cases hmark : mark.complete with
      | true => simp [count, extent, hmark, h hmark]
      | false => simp [count, extent, hmark]
  | deferred mark part => simp [isExpanded] at hexp
  | sequence mark info parts ih =>
      obtain ⟨hcomplete, hparts⟩ := h
      rw [isExpanded, allExpanded_iff] at hexp
      cases hmark : mark.complete with
      | true => simp [count, extent, hmark, hcomplete hmark]
      | false =>
          simp only [count, hmark, Bool.false_eq_true, if_false, extent]
          exact sumCounts_eq_extentAll fun part hmem =>
            ih part hmem (hreg.2.2.2.regular part hmem) (uniformAll_iff.1 hparts part hmem)
              (hexp part hmem)
  | choice mark branches ih =>
      obtain ⟨hcomplete, hbranches⟩ := h
      rw [isExpanded, allExpanded_iff] at hexp
      cases hmark : mark.complete with
      | true => simp [count, extent, hmark, hcomplete hmark]
      | false =>
          simp only [count, hmark, Bool.false_eq_true, if_false, extent]
          refine maxCounts_eq hreg.1 ?_
          intro branch hmem
          obtain ⟨huniform, hextent⟩ := uniformAny_iff.1 hbranches branch hmem
          rw [ih branch hmem (regularBranches_iff.1 hreg.2.2 branch hmem) huniform
            (hexp branch hmem), hextent]

/-- A uniform outline either counts its words right or does not know their number. -/
theorem Uniform.count_eq_of_nonneg {outline : Outline} (h : outline.Uniform grammar)
    (hreg : outline.Regular grammar root) (hcount : 0 ≤ outline.count) :
    outline.count = outline.extent grammar :=
  h.count_eq hreg (hreg.isExpanded_of_count hcount)

/-- A regular outline that is expanded as far as its word lists reach is expanded altogether. -/
theorem Regular.isExpanded_of_expandedTo (hg : grammar.PositionDetermined root)
    {outline : Outline} {limit start : Nat} (h : outline.Regular grammar root)
    (hexp : outline.ExpandedTo grammar limit start)
    (hlimit : ∀ words, outline.Yields grammar words → start + words.length ≤ limit) :
    outline.isExpanded = true := by
  induction outline generalizing start with
  | blank mark => exact h.elim
  | scope mark type => exact h.elim
  | word mark w => rfl
  | deferred mark part =>
      -- a rule that is put off starts at or after the limit, and has a word to put there
      obtain ⟨-, -, -, id, hid, hreach⟩ := h
      obtain ⟨words, hwords⟩ := hg.exists_derives hreach
      have hpos := List.length_pos_iff.2 (hg.ne_nil_of_derives hreach words hwords)
      have hle := hlimit words ⟨id, hid, hwords⟩
      rw [ExpandedTo] at hexp
      omega
  | sequence mark info parts ih =>
      have hparts := h.2.2.2
      rw [ExpandedTo] at hexp
      rw [isExpanded]
      simp only [Yields] at hlimit
      clear h
      induction parts generalizing start with
      | nil => rfl
      | cons part parts ihparts =>
          have hpart := List.mem_cons_self (a := part) (l := parts)
          obtain ⟨hreg, huniform, hrest⟩ := hparts
          obtain ⟨first, hfirst⟩ := hreg.exists_yields hg
          obtain ⟨rest, hrestWords⟩ := exists_yieldsAll fun other hother =>
            (hrest.regular other hother).exists_yields hg
          -- any word list of the other parts shows how far this one may reach
          have hhead : part.isExpanded = true := by
            refine ih part hpart hreg hexp.1 ?_
            intro words hwords
            have hle := hlimit _ ⟨words, rest, rfl, hwords, hrestWords⟩
            rw [List.length_append] at hle
            omega
          have htail : allExpanded parts = true := by
            by_cases hnil : parts = []
            · subst hnil
              rfl
            · refine ihparts (fun other hother => ih other (List.mem_cons_of_mem _ hother))
                hexp.2 (fun words hwords => ?_) hrest
              have hle := hlimit _ ⟨first, words, rfl, hfirst, hwords⟩
              rw [List.length_append, (huniform hnil).length_eq hfirst] at hle
              omega
          rw [allExpanded, hhead, htail]
          rfl
  | choice mark branches ih =>
      rw [ExpandedTo, anyExpandedTo_iff] at hexp
      apply allExpanded_iff.2
      intro branch hmem
      exact ih branch hmem (regularBranches_iff.1 h.2.2 branch hmem) (hexp branch hmem)
        fun words hwords => hlimit words (yieldsAny_iff.2 ⟨branch, hmem, hwords⟩)

/-- A uniform outline that ends at or before the limit it is expanded to is expanded altogether. -/
theorem Uniform.isExpanded_of_expandedTo (hg : grammar.PositionDetermined root)
    {outline : Outline} (h : outline.Uniform grammar) (hreg : outline.Regular grammar root)
    {limit start : Nat} (hexp : outline.ExpandedTo grammar limit start)
    (hend : start + outline.extent grammar ≤ limit) : outline.isExpanded = true := by
  refine hreg.isExpanded_of_expandedTo hg hexp ?_
  intro words hwords
  rw [h.length_eq hwords]
  exact hend

end Outline

end Typeahead
