/-
The branches of a choice are a set.

In which order the branches of a choice come, and how often one comes, does not show in the
suggestions: the runs for two such grammars go in lockstep, similar outlines offer the same texts, and
the texts are put in order and repeated ones dropped.  The number of passes that are allowed depends on
the number of branches, so the two languages are compared pass by pass; with at least as many branches
the answer is the same.

Main results:

* `Typeahead.Language.completionOf_eq` — similar outlines give the same answer;
* `Typeahead.Language.suggest_sameBranches` — grammars with the same branches give the same
  suggestions.
-/

import Typeahead.Proofs.Lockstep

set_option relaxedAutoImplicit false
set_option autoImplicit false

namespace Typeahead

namespace Language

variable {language : Language} {grammar : Grammar}

/-- No name is extra if only the order and the repetition of branches differ. -/
theorem extends_sameBranches (h : language.grammar.SameBranches grammar) :
    language.Extends (fun _ => False) { language with grammar } where
  grammar := h
  types := rfl
  settings := rfl
  candidates _ _ := .refl _

/-- Without extra names the same texts are offered, and their order does not depend on the order in
which they are found. -/
theorem completionOf_eq (h : language.grammar.SameBranches grammar) (reading : Reading)
    {outcome outcome' : Option Outline}
    (houtcome : Option.Rel (Outline.Similar fun _ => False) outcome outcome') :
    ({ language with grammar } : Language).completionOf reading outcome' =
      language.completionOf reading outcome := by
  cases houtcome with
  | none => rfl
  | some hsimilar =>
      have hoffers := hsimilar.offers h.closing? reading.query.active
      have htexts : ∀ text, text ∈ _ ↔ text ∈ _ := fun text =>
        ⟨fun htext => (hoffers.right text htext).elim id fun ⟨_, hfalse, _⟩ => hfalse.elim,
          hoffers.left text⟩
      simp only [completionOf, hoffers.more, Ranking.rank_congr htexts]

/-- With wider rules at least as many passes are allowed. -/
theorem suggestBudget_le (h : language.grammar.SameBranches grammar)
    (hwidth : language.grammar.width ≤ grammar.width) (request : Request) :
    language.suggestBudget request ≤
      ({ language with grammar } : Language).suggestBudget request := by
  have hpow : (language.grammar.width + 2) ^ (language.grammar.rules.size + 2) ≤
      (grammar.width + 2) ^ (language.grammar.rules.size + 2) :=
    Nat.pow_le_pow_left (Nat.add_le_add_right hwidth 2) _
  simp only [suggestBudget, passBudget, h.size]
  exact Nat.mul_le_mul_left _ (Nat.add_le_add_right hpow _)

/-- Two grammars that differ in the order and the repetition of branches only give the same answer
after every number of passes, so the completer settles on an answer for both or for none.  If both
answer within the passes they are allowed, the answers are equal, and a grammar that is no narrower
than the other answers whenever the other does. -/
theorem suggest_sameBranches (language : Language) {grammar : Grammar}
    (h : language.grammar.SameBranches grammar) (files : FileTree) (request : Request) :
    (∀ passes, ({ language with grammar } : Language).suggestWithin passes files request =
      language.suggestWithin passes files request) ∧
    (∀ completion completion', language.suggest files request = some completion →
      ({ language with grammar } : Language).suggest files request = some completion' →
      completion' = completion) ∧
    (language.grammar.width ≤ grammar.width → ∀ completion,
      language.suggest files request = some completion →
      ({ language with grammar } : Language).suggest files request = some completion) := by
  have hwithin : ∀ passes, ({ language with grammar } : Language).suggestWithin passes files request =
      language.suggestWithin passes files request := by
    intro passes
    have hrel := (extends_sameBranches h).suggestWithin (R := fun completion completion' =>
      completion' = completion) (fun _ => rfl) (fun reading _ _ => completionOf_eq h reading)
      passes files request
    generalize language.suggestWithin passes files request = answer at hrel
    generalize ({ language with grammar } : Language).suggestWithin passes files request = answer'
      at hrel
    cases hrel with
    | none => rfl
    | some heq => rw [heq]
  refine ⟨hwithin, ?_, ?_⟩
  · intro completion completion' hsuggest hsuggest'
    rw [suggest_eq_suggestWithin] at hsuggest hsuggest'
    rw [hwithin] at hsuggest'
    -- with the greater number of passes both answers are still there
    rcases le_total (language.suggestBudget request)
      (({ language with grammar } : Language).suggestBudget request) with hle | hle
    · rw [suggestWithin_of_le hsuggest hle] at hsuggest'
      exact (Option.some.inj hsuggest').symm
    · rw [suggestWithin_of_le hsuggest' hle] at hsuggest
      exact Option.some.inj hsuggest
  · intro hwidth completion hsuggest
    rw [suggest_eq_suggestWithin] at hsuggest ⊢
    rw [hwithin]
    exact suggestWithin_of_le hsuggest (suggestBudget_le h hwidth request)

/-! ### A choice in two orders -/

/-- A grammar with the commands `a b` and `a c`, in an order that is left open. -/
def forkGrammar (branches : List RuleId) : Grammar where
  rules := #[⟨.leaf (.literal "a"), none⟩, ⟨.leaf (.literal "b"), none⟩,
    ⟨.leaf (.literal "c"), none⟩, ⟨.choice branches, none⟩,
    ⟨.sequence [⟨0⟩, ⟨3⟩] false false, none⟩]
  root := some ⟨4⟩

theorem sameBranches_forkGrammar {branches branches' : List RuleId}
    (h : ∀ id, id ∈ branches ↔ id ∈ branches') :
    (forkGrammar branches).SameBranches (forkGrammar branches') where
  root := rfl
  rules := .cons ⟨rfl, .refl _⟩ (.cons ⟨rfl, .refl _⟩ (.cons ⟨rfl, .refl _⟩
    (.cons ⟨rfl, .choice h⟩ (.cons ⟨rfl, .refl _⟩ .nil))))

/-- The language of the commands `a b` and `a c`. -/
def forkLanguage : Language where
  grammar := forkGrammar [⟨1⟩, ⟨2⟩]

/-- Behind `a` the words `b` and `c` are suggested, also if the branches are turned around and one
comes twice. -/
theorem suggest_sameBranches_forkLanguage :
    ∃ completion, (∀ text, text ∈ completion.suggestions ↔ text = "b" ∨ text = "c") ∧
      forkLanguage.suggest {} (.atEnd "a " [] none) = some completion ∧
      ({ forkLanguage with grammar := forkGrammar [⟨2⟩, ⟨1⟩, ⟨2⟩] } : Language).suggest {}
        (.atEnd "a " [] none) = some completion := by
  have hbranches : ∀ id : RuleId, id ∈ [⟨1⟩, ⟨2⟩] ↔ id ∈ [(⟨2⟩ : RuleId), ⟨1⟩, ⟨2⟩] := by
    intro id
    simp only [List.mem_cons, List.not_mem_nil]
    tauto
  have htexts : (forkLanguage.suggestOutcome (.atEnd "a " [] none)).map (Option.map fun outline =>
      (outline.offers forkLanguage.grammar
        (forkLanguage.suggestQuery (.atEnd "a " [] none)).active).texts) =
        some (some ["b", "c"]) := by decide +kernel
  obtain ⟨outcome, houtcome, htexts⟩ := Option.map_eq_some_iff.1 htexts
  obtain ⟨outline, rfl, hoffers⟩ := Option.map_eq_some_iff.1 htexts
  obtain ⟨completion, hsuggest, hmem⟩ := exists_suggest_of_outcome {} (by decide +kernel) houtcome
  obtain ⟨-, -, hwider⟩ := suggest_sameBranches forkLanguage
    (sameBranches_forkGrammar hbranches) {} (.atEnd "a " [] none)
  refine ⟨completion, ?_, hsuggest, hwider (by decide) completion hsuggest⟩
  intro text
  rw [hmem]
  simp [hoffers]

end Language

end Typeahead
