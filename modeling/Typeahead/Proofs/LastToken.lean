/-
Whether a word follows the one at the cursor.

The walk that reads suggestions off an outline also tells whether more is to be typed: it says so as
soon as it comes to a node with its countdown one below the place of the query.  Up to the place right
after the query the countdown is right, so it gets there if any word list does.  Beyond that place the
countdown may go up again and come back to the same number, but a node that it meets there has words of
its own, and these stand after the query as well.

Main results:

* `Typeahead.Outline.exists_yields_of_more` — the walk says so only if some word list is long enough;
* `Typeahead.Outline.more_of_yields` — and it does if one is;
* `Typeahead.Language.suggest_lastToken_iff` — the word at the cursor counts as the last one exactly
  if no command that continues what was typed has a word after it.
-/

import Typeahead.Proofs.Similar
import Typeahead.Proofs.Suggestions

set_option relaxedAutoImplicit false
set_option autoImplicit false

namespace Typeahead

namespace Outline

variable {grammar : Grammar} {root : RuleId}

theorem Regular.ne_nil_of_yields (hg : grammar.PositionDetermined root) {outline : Outline}
    (h : outline.Regular grammar root) {words : List Word} (hwords : outline.Yields grammar words) :
    words ≠ [] := by
  induction outline generalizing words with
  | blank mark => exact h.elim
  | scope mark type => exact h.elim
  | word mark w =>
      rw [Yields] at hwords
      simp [hwords]
  | deferred mark part =>
      obtain ⟨-, -, -, id, hid, hreach⟩ := h
      obtain ⟨id', hid', hderives⟩ := hwords
      obtain rfl : id = id' := Option.some.inj (hid.symm.trans hid')
      exact hg.ne_nil_of_derives hreach words hderives
  | sequence mark info parts ih =>
      obtain ⟨-, hne, -, hparts⟩ := h
      obtain ⟨part, rest, rfl⟩ := List.exists_cons_of_ne_nil hne
      obtain ⟨first, others, rfl, hfirst, -⟩ := hwords
      have := ih part (List.mem_cons_self ..) hparts.1 hfirst
      simp [this]
  | choice mark branches ih =>
      obtain ⟨branch, hmem, hbranch⟩ := yieldsAny_iff.1 hwords
      exact ih branch hmem (regularBranches_iff.1 h.2.2 branch hmem) hbranch

theorem partOffers_more_cons {remaining : Int} {part : Outline} {parts : List Outline} :
    (partOffers grammar remaining (part :: parts)).more = true ↔
      (part.offers grammar remaining).more = true ∨
        (partOffers grammar (remaining - part.count) parts).more = true := by
  simp [partOffers, Offers.append]

/-- Right after the place of the query, every node tells that more is to be typed. -/
theorem Regular.more_right_after {target : Nat} {outline : Outline}
    (h : outline.Regular grammar root) :
    (outline.offers grammar (target - (target + 1 : Nat) : Int)).more = true := by
  have hpast : (target : Int) - (target + 1 : Nat) = pastQuery := by
    unfold pastQuery
    omega
  rw [hpast]
  cases outline with
  | blank mark => exact h.elim
  | scope mark type => exact h.elim
  | word mark w => simp [offers, h.2.1]
  | deferred | sequence | choice => simp [offers]

/-- A node that the walk meets right after the place of the query has a word to put there, or further
on. -/
theorem OnCourse.exists_yields (hg : grammar.PositionDetermined root) {target : Nat}
    {outline : Outline} (hreg : outline.Regular grammar root) {start : Nat}
    (h : OnCourse target pastQuery start) :
    ∃ words, outline.Yields grammar words ∧ target + 1 < start + words.length := by
  have hstart : target + 1 ≤ start := by
    by_contra hlt
    have hremaining := h (by omega)
    unfold pastQuery at hremaining
    omega
  obtain ⟨words, hwords⟩ := hreg.exists_yields hg
  have hpos := List.length_pos_iff.2 (hreg.ne_nil_of_yields hg hwords)
  exact ⟨words, hwords, by omega⟩

/-- A walk that starts on course says that more is to be typed only if some word list reaches beyond
the place of the query. -/
theorem exists_yields_of_more (hg : grammar.PositionDetermined root) {target : Nat}
    {outline : Outline} (hreg : outline.Regular grammar root) {remaining : Int} {start : Nat}
    (hexp : outline.ExpandedTo grammar (target + 1) start)
    (hcourse : OnCourse target remaining start)
    (hmore : (outline.offers grammar remaining).more = true) :
    ∃ words, outline.Yields grammar words ∧ target + 1 < start + words.length := by
  by_cases hpast : remaining = pastQuery
  · exact OnCourse.exists_yields hg hreg (hpast ▸ hcourse)
  induction outline generalizing remaining start with
  | blank mark => exact hreg.elim
  | scope mark type => exact hreg.elim
  | word mark w =>
      simp only [offers, if_neg hpast] at hmore
      split at hmore <;> cases hmore
  | deferred mark part => simp [offers, hpast] at hmore
  | choice mark branches ih =>
      rw [offers, if_neg hpast, branchOffers_more] at hmore
      obtain ⟨branch, hmem, hbranch⟩ := hmore
      obtain ⟨words, hwords, hlength⟩ := ih branch hmem
        (regularBranches_iff.1 hreg.2.2 branch hmem) (anyExpandedTo_iff.1 hexp branch hmem) hcourse
        hbranch hpast
      exact ⟨words, yieldsAny_iff.2 ⟨branch, hmem, hwords⟩, hlength⟩
  | sequence mark info parts ih =>
      rw [offers, if_neg hpast] at hmore
      have hparts := hreg.2.2.2
      rw [ExpandedTo] at hexp
      simp only [Yields]
      clear hreg hpast
      induction parts generalizing remaining start with
      | nil => cases hmore
      | cons part parts ihparts =>
          obtain ⟨hpart, huniform, hrest⟩ := hparts
          rcases partOffers_more_cons.1 hmore with hfirst | hlater
          · -- whatever follows only makes the word list longer
            obtain ⟨words, hwords, hlength⟩ : ∃ words, part.Yields grammar words ∧
                target + 1 < start + words.length := by
              by_cases hpast : remaining = pastQuery
              · exact OnCourse.exists_yields hg hpart (hpast ▸ hcourse)
              · exact ih part (List.mem_cons_self ..) hpart hexp.1 hcourse hfirst hpast
            obtain ⟨rest, hrestWords⟩ := exists_yieldsAll fun other hother =>
              (hrest.regular other hother).exists_yields hg
            refine ⟨words ++ rest, ⟨words, rest, rfl, hwords, hrestWords⟩, ?_⟩
            rw [List.length_append]
            omega
          · have hne : parts ≠ [] := by
              rintro rfl
              cases hlater
            have hnext : OnCourse target (remaining - part.count) (start + part.extent grammar) := by
              intro hend
              have hcount := (huniform hne).count_eq_of_expandedTo hg hpart hexp.1 hend
              have hremaining := hcourse (by omega)
              omega
            obtain ⟨rest, hrestWords, hlength⟩ := ihparts
              (fun other hother => ih other (List.mem_cons_of_mem _ hother)) hexp.2 hnext hlater
              hrest
            obtain ⟨first, hfirst⟩ := hpart.exists_yields hg
            refine ⟨first ++ rest, ⟨first, rest, rfl, hfirst, hrestWords⟩, ?_⟩
            rw [List.length_append, (huniform hne).length_eq hfirst]
            omega

/-- If some word list reaches beyond the place of the query, the walk says that more is to be
typed. -/
theorem more_of_yields (hg : grammar.PositionDetermined root) {target : Nat} {outline : Outline}
    (hreg : outline.Regular grammar root) {start : Nat} (hstart : start ≤ target + 1)
    (hexp : outline.ExpandedTo grammar (target + 1) start) {words : List Word}
    (hwords : outline.Yields grammar words) (hlength : target + 1 < start + words.length) :
    (outline.offers grammar (target - start : Int)).more = true := by
  rcases Nat.eq_or_lt_of_le hstart with rfl | hlt
  · exact hreg.more_right_after
  induction outline generalizing start words with
  | blank mark => exact hreg.elim
  | scope mark type => exact hreg.elim
  | word mark w =>
      rw [Yields] at hwords
      rw [hwords, List.length_singleton] at hlength
      omega
  | deferred mark part =>
      rw [ExpandedTo] at hexp
      omega
  | choice mark branches ih =>
      obtain ⟨branch, hmem, hbranch⟩ := yieldsAny_iff.1 hwords
      rw [offers, if_neg (by unfold pastQuery; omega), branchOffers_more]
      exact ⟨branch, hmem, ih branch hmem (regularBranches_iff.1 hreg.2.2 branch hmem) hstart
        (anyExpandedTo_iff.1 hexp branch hmem) hbranch hlength hlt⟩
  | sequence mark info parts ih =>
      rw [offers, if_neg (by unfold pastQuery; omega)]
      have hparts := hreg.2.2.2
      rw [ExpandedTo] at hexp
      rw [Yields] at hwords
      clear hreg hlt
      induction parts generalizing start words with
      | nil =>
          rw [YieldsAll] at hwords
          simp only [hwords, List.length_nil] at hlength
          omega
      | cons part parts ihparts =>
          obtain ⟨hpart, huniform, hrest⟩ := hparts
          obtain ⟨first, rest, rfl, hfirst, hrestWords⟩ := hwords
          rw [List.length_append] at hlength
          rw [partOffers_more_cons]
          rcases Nat.eq_or_lt_of_le hstart with rfl | hlt
          · exact .inl hpart.more_right_after
          by_cases hreach : target + 1 < start + first.length
          · exact .inl (ih part (List.mem_cons_self ..) hpart hstart hexp.1 hfirst hreach hlt)
          · have hne : parts ≠ [] := by
              rintro rfl
              rw [YieldsAll] at hrestWords
              rw [hrestWords, List.length_nil] at hlength
              omega
            have hextent := (huniform hne).length_eq hfirst
            -- the part ends right after the query or before that, and counts its words right
            have hcount := (huniform hne).count_eq_of_expandedTo hg hpart hexp.1 (by omega)
            have hnext : (target : Int) - (start + part.extent grammar : Nat) =
                target - start - part.count := by omega
            refine .inr (hnext ▸ ihparts ?_ (by omega) hexp.2 hrestWords (by omega) hrest)
            intro other hother
            exact ih other (List.mem_cons_of_mem _ hother)

end Outline

namespace Language

variable {language : Language} {request : Request} {root : RuleId}

/-- Outside include commands a word is the last one unless the walk over the outcome finds more. -/
theorem exists_suggest_lastToken_of_outcome (files : FileTree)
    (hquery : (language.suggestQuery request).isInclude language.settings.includeCommands = false)
    {outcome : Option Outline} (houtcome : language.suggestOutcome request = some outcome) :
    ∃ answer, language.suggest files request = some answer ∧
      (answer.lastToken = true ↔ ¬ ∃ outline, outcome = some outline ∧
        (outline.offers language.grammar (language.suggestQuery request).active).more = true) := by
  rw [suggestQuery] at hquery
  rw [suggestOutcome, suggestQuery] at houtcome
  simp only [suggest, hquery, Bool.false_eq_true, if_false, houtcome, Option.map_some,
    Option.some.injEq, exists_eq_left']
  cases outcome with
  | none => simp
  | some outline => simp [suggestQuery]

/-- The word at the cursor counts as the last one exactly if no command that continues what was typed
has a word after it. -/
theorem suggest_lastToken_iff (hquery : (language.suggestQuery request).isInclude
      language.settings.includeCommands = false)
    (hg : language.grammar.PositionDetermined root) (hroot : language.grammar.root = some root)
    (hblocks : request.blocks = []) (files : FileTree) :
    ∃ answer, language.suggest files request = some answer ∧
      (answer.lastToken = true ↔ ¬ ∃ words, language.grammar.Derives root words ∧
        (language.suggestQuery request).Leads words ∧
        (language.suggestQuery request).active + 1 < words.length) := by
  obtain ⟨outcome, houtcome, hsettles⟩ := exists_suggestOutcome hquery hg hroot hblocks
  obtain ⟨answer, hanswer, hlast⟩ := exists_suggest_lastToken_of_outcome files hquery houtcome
  refine ⟨answer, hanswer, hlast.trans (not_congr ?_)⟩
  constructor
  · rintro ⟨outline, rfl, hmore⟩
    obtain ⟨htracks, hexp, hagrees⟩ := hsettles
    have hcourse : Outline.OnCourse (language.suggestQuery request).active
        (language.suggestQuery request).active 0 := fun _ => by omega
    obtain ⟨words, hwords, hlength⟩ :=
      Outline.exists_yields_of_more hg htracks.regular hexp hcourse hmore
    exact ⟨words, htracks.sound words hwords,
      Query.leads_of_take ((agrees_suggestQuery hquery).1 (hagrees words hwords)), by omega⟩
  · rintro ⟨words, hwords, hleads, hlength⟩
    have hagrees := (agrees_suggestQuery hquery).2 hleads
    cases outcome with
    | none => exact absurd hagrees (hsettles words hwords)
    | some outline =>
        obtain ⟨htracks, hexp, -⟩ := hsettles
        have hmore := Outline.more_of_yields hg htracks.regular (Nat.zero_le _) hexp
          (htracks.complete words hwords hagrees) (by omega)
        rw [Int.natCast_zero, Int.sub_zero] at hmore
        exact ⟨outline, rfl, hmore⟩

/-- Behind `a` more is to be typed, and behind `a b c x` only one word is left. -/
theorem suggest_lastToken_nestedLanguage :
    (∃ answer, nestedLanguage.suggest {} nestedRequest = some answer ∧
      answer.lastToken = false) ∧
    ∃ answer, nestedLanguage.suggest {} (.atEnd "a b c x " [] none) = some answer ∧
      answer.lastToken = true := by
  have hlast : nestedLanguage.suggestQuery (.atEnd "a b c x " [] none) =
      ⟨["a", "b", "c", "x", ""], 4, .suggest⟩ := by decide +kernel
  constructor
  · obtain ⟨answer, hanswer, hiff⟩ := suggest_lastToken_iff isInclude_nestedRequest
      positionDetermined_nestedLanguage rfl rfl {}
    refine ⟨answer, hanswer, Bool.eq_false_iff.2 fun htrue => hiff.1 htrue ?_⟩
    rw [suggestQuery_nestedRequest]
    refine ⟨_, derives_nestedLanguage.2 rfl, ?_, by decide⟩
    intro i word hi hword
    obtain rfl : i = 0 := Nat.lt_one_iff.1 hi
    cases hword
    exact .inr rfl
  · obtain ⟨answer, hanswer, hiff⟩ := suggest_lastToken_iff (by rw [hlast]; decide +kernel)
      positionDetermined_nestedLanguage rfl rfl {}
    refine ⟨answer, hanswer, hiff.2 ?_⟩
    rintro ⟨words, hwords, -, hlength⟩
    rw [derives_nestedLanguage.1 hwords, hlast] at hlength
    exact absurd hlength (by decide)

end Language

end Typeahead
