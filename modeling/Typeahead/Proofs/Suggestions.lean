/-
Suggestions for position-determined grammars.

A command continues what was typed if its words before the cursor are patterns or the typed ones.
Every word that stands at the cursor in such a command is suggested.  The converse fails: the walk
over the outline may come back to the place of the cursor after passing it, and then offers a word
that stands two or more places further on.  These stray words are the only ones that are wrong.

Main definitions:

* `Typeahead.Query.Leads` — the query leads to a command;
* `Typeahead.Language.Continues` — a text shows the word at the cursor of such a command;
* `Typeahead.Language.Strays` — a text is offered beyond the place of the cursor.

Main results:

* `Typeahead.Language.suggest_complete` — every word that continues the command is suggested;
* `Typeahead.Language.mem_suggestions_iff` — nothing else is suggested, apart from stray words;
* `Typeahead.Language.suggest_sound_iff` — suggestions are sound exactly if stray words are;
* `Typeahead.Language.not_suggest_sound` — stray words need not be.
-/

import Typeahead.Proofs.Layered
import Typeahead.Proofs.Offers
import Typeahead.Proofs.Settling
import Typeahead.Proofs.Sorting

set_option relaxedAutoImplicit false
set_option autoImplicit false

namespace Typeahead

/-! ### The query of a request for suggestions -/

namespace Query

/-- Each of the words before the active one is a pattern or the typed word. -/
def Leads (query : Query) (words : List Word) : Prop :=
  ∀ i word, i < query.active → words[i]? = some word →
    word.isPattern = true ∨ query.words[i]? = some word.text

/-- Before the active word only the typed word is accepted. -/
theorem accepts_iff_of_lt {query : Query} {text : String} {i : Nat} (hi : i < query.words.length)
    (hactive : i < query.active) :
    query.accepts text i = true ↔ query.words[i]? = some text := by
  have hword := List.getElem?_eq_getElem hi
  simp only [accepts, hword, if_neg (ne_of_lt hactive), beq_iff_eq, Option.some.injEq]
  exact eq_comm

theorem agreeSoFar_nil (text : String) : agreeSoFar text "" = true := by
  rw [agreeSoFar_iff]
  exact .inr (by simp)

/-- With nothing typed at the cursor, agreement is a matter of the words before it. -/
theorem agrees_iff_leads {query : Query} {typed : List String} (hwords : query.words = typed ++ [""])
    (hactive : query.active = typed.length) {words : List Word} :
    query.Agrees 0 words ↔ query.Leads words := by
  rw [agrees_iff]
  simp only [Nat.zero_add]
  constructor
  · intro h i word hi hword
    have hlength : i < query.words.length := by simp [hwords]; omega
    exact (h i word hword).imp_right (accepts_iff_of_lt hlength hi).1
  · intro h i word hword
    rcases lt_trichotomy i query.active with hlt | rfl | hgt
    · have hlength : i < query.words.length := by simp [hwords]; omega
      exact (h i word hlt hword).imp_right (accepts_iff_of_lt hlength hlt).2
    · -- everything starts with the empty word
      have hempty : query.words[query.active]? = some "" := by simp [hwords, hactive]
      exact .inr (by simp [accepts, hempty, agreeSoFar_nil])
    · have hnone : query.words[i]? = none := by
        rw [List.getElem?_eq_none_iff, hwords, List.length_append, List.length_singleton]
        omega
      exact .inr (by simp [accepts, hnone])

theorem leads_of_take {query : Query} {words : List Word}
    (h : query.Leads (words.take (query.active + 1))) : query.Leads words := by
  intro i word hi hword
  refine h i word hi ?_
  rw [List.getElem?_take_of_lt (by omega)]
  exact hword

end Query

namespace Reading

/-- Unless the command includes a file, nothing counts as typed at the cursor. -/
theorem ofText_query {text : String} {cursor : Nat} {commands : List String}
    (h : (ofText text cursor .suggest commands).query.isInclude commands = false) :
    ∃ typed, (ofText text cursor .suggest commands).query.words = typed ++ [""] ∧
      (ofText text cursor .suggest commands).query.active = typed.length := by
  obtain ⟨typed, last, htyped⟩ : ∃ typed last,
      (typedWords text.toList cursor).map String.ofList = typed ++ [last] := by
    rw [typedWords, List.map_append]
    exact ⟨_, _, rfl⟩
  have hmode : (Mode.suggest == Mode.hint) = false := rfl
  simp only [ofText, htyped, List.dropLast_concat, List.length_append, List.length_singleton,
    Nat.add_sub_cancel, hmode, Bool.false_or] at h ⊢
  refine ⟨typed, ?_⟩
  cases hinclude : Query.isInclude ⟨typed ++ [last], typed.length, .suggest⟩ commands with
  | true =>
      rw [hinclude, if_pos rfl, hinclude] at h
      cases h
  | false => exact ⟨rfl, rfl⟩

end Reading

namespace Language

variable {language : Language} {root : RuleId} {request : Request}

/-- The query of a request for suggestions. -/
def suggestQuery (language : Language) (request : Request) : Query :=
  (Reading.ofText request.text request.cursor .suggest language.settings.includeCommands).query

/-- What the passes come to for a request for suggestions. -/
def suggestOutcome (language : Language) (request : Request) : Option (Option Outline) :=
  language.settle (language.suggestQuery request) request.scope request.blocks
    (language.suggestQuery request).words.length

/-- The text shows the word at the cursor of a command that continues what was typed. -/
def Continues (language : Language) (root : RuleId) (query : Query) (text : String) : Prop :=
  ∃ words w, language.grammar.Derives root words ∧ query.Leads words ∧
    words[query.active]? = some w ∧ text = w.rendered

/-- The walk over the outline offers the text for a word that stands beyond the cursor. -/
def Strays (language : Language) (request : Request) (text : String) : Prop :=
  ∃ outline place w, language.suggestOutcome request = some (some outline) ∧
    (language.suggestQuery request).active < place ∧
    outline.OffersAt language.grammar place w (language.suggestQuery request).active 0 ∧
    text = w.rendered

/-- Outside include commands the suggestions are the offers of the outcome. -/
theorem exists_suggest_of_outcome (files : FileTree)
    (hquery : (language.suggestQuery request).isInclude language.settings.includeCommands = false)
    {outcome : Option Outline} (houtcome : language.suggestOutcome request = some outcome) :
    ∃ answer, language.suggest files request = some answer ∧
      ∀ text, text ∈ answer.suggestions ↔ ∃ outline, outcome = some outline ∧
        text ∈ (outline.offers language.grammar (language.suggestQuery request).active).texts := by
  rw [suggestQuery] at hquery
  rw [suggestOutcome, suggestQuery] at houtcome
  simp only [suggest, hquery, Bool.false_eq_true, if_false, houtcome, Option.map_some,
    Option.some.injEq, exists_eq_left']
  cases outcome with
  | none => simp
  | some outline => simp [Ranking.mem_rank, suggestQuery]

/-- Outside include commands the suggestions are the texts that the outcome offers. -/
theorem exists_suggest_of_texts
    (hquery : (language.suggestQuery request).isInclude language.settings.includeCommands = false)
    {texts : List String}
    (htexts : (language.suggestOutcome request).map (fun outcome => outcome.elim [] fun outline =>
      (outline.offers language.grammar (language.suggestQuery request).active).texts) =
        some texts) (files : FileTree) :
    ∃ answer, language.suggest files request = some answer ∧
      ∀ text, text ∈ answer.suggestions ↔ text ∈ texts := by
  obtain ⟨outcome, houtcome, rfl⟩ := Option.map_eq_some_iff.1 htexts
  obtain ⟨answer, hanswer, hmem⟩ := exists_suggest_of_outcome files hquery houtcome
  refine ⟨answer, hanswer, ?_⟩
  intro text
  rw [hmem]
  cases outcome <;> simp

/-- With nothing typed at the cursor, every text may stand there. -/
theorem suggestQuery_active
    (hquery : (language.suggestQuery request).isInclude language.settings.includeCommands = false) :
    (language.suggestQuery request).words.length = (language.suggestQuery request).active + 1 ∧
      ∀ text, (language.suggestQuery request).accepts text
        (language.suggestQuery request).active = true := by
  obtain ⟨typed, hwords, hactive⟩ := Reading.ofText_query hquery
  rw [suggestQuery]
  refine ⟨by rw [hwords, hactive, List.length_append, List.length_singleton], ?_⟩
  intro text
  have hlast : (typed ++ [""])[typed.length]? = some "" := by simp
  rw [Query.accepts, hwords, hactive, hlast]
  simp only [if_true]
  exact Query.agreeSoFar_nil text

section PositionDetermined

variable (hquery : (language.suggestQuery request).isInclude
  language.settings.includeCommands = false)
include hquery

theorem agrees_suggestQuery {words : List Word} :
    (language.suggestQuery request).Agrees 0 words ↔
      (language.suggestQuery request).Leads words := by
  obtain ⟨typed, hwords, hactive⟩ := Reading.ofText_query hquery
  exact Query.agrees_iff_leads hwords hactive

variable (hg : language.grammar.PositionDetermined root)
  (hroot : language.grammar.root = some root) (hblocks : request.blocks = [])
include hg hroot hblocks

/-- The outcome of a request for suggestions is settled up to the place after the cursor. -/
theorem exists_suggestOutcome :
    ∃ outcome, language.suggestOutcome request = some outcome ∧
      language.Settles root (language.suggestQuery request)
        ((language.suggestQuery request).active + 1) outcome := by
  obtain ⟨typed, hwords, hactive⟩ := Reading.ofText_query hquery
  have hlength : (language.suggestQuery request).words.length =
      (language.suggestQuery request).active + 1 := by
    rw [suggestQuery, hwords, hactive, List.length_append, List.length_singleton]
  rw [suggestOutcome, hblocks, hlength]
  exact settle_settles hg hroot _ _ _

/-- A word that the walk offers stands in a command that the query leads to, at the cursor or two or
more places after it. -/
theorem exists_derives_of_offersAt {outline : Outline} {place : Nat} {w : Word}
    (houtline : language.suggestOutcome request = some (some outline))
    (hoffers : outline.OffersAt language.grammar place w (language.suggestQuery request).active 0) :
    (place = (language.suggestQuery request).active ∨
        (language.suggestQuery request).active + 2 ≤ place) ∧
      ∃ words, language.grammar.Derives root words ∧
        (language.suggestQuery request).Leads words ∧ words[place]? = some w := by
  obtain ⟨outcome, houtcome, hsettles⟩ := exists_suggestOutcome hquery hg hroot hblocks
  obtain rfl : some outline = outcome := Option.some.inj (houtline.symm.trans houtcome)
  obtain ⟨htracks, hexp, hagrees⟩ := hsettles
  have hcourse : Outline.OnCourse (language.suggestQuery request).active
      (language.suggestQuery request).active 0 := fun _ => by omega
  refine ⟨hoffers.place_eq_or_lt hg htracks.regular hexp hcourse, ?_⟩
  obtain ⟨words, hwords, -, hplace⟩ := hoffers.exists_yields hg htracks.regular
  exact ⟨words, htracks.sound words hwords,
    Query.leads_of_take ((agrees_suggestQuery hquery).1 (hagrees words hwords)), hplace⟩

/-- The suggestions are the words that continue the command, and the stray ones. -/
theorem mem_suggestions_iff (files : FileTree) :
    ∃ answer, language.suggest files request = some answer ∧ ∀ text, text ∈ answer.suggestions ↔
      language.Continues root (language.suggestQuery request) text ∨
        language.Strays request text := by
  obtain ⟨outcome, houtcome, hsettles⟩ := exists_suggestOutcome hquery hg hroot hblocks
  obtain ⟨answer, hanswer, hmem⟩ := exists_suggest_of_outcome files hquery houtcome
  refine ⟨answer, hanswer, fun text => (hmem text).trans ?_⟩
  constructor
  · rintro ⟨outline, rfl, htext⟩
    obtain ⟨htracks, -⟩ := hsettles
    obtain ⟨place, w, hoffers, rfl⟩ := (Outline.mem_offers_iff htracks.regular _ 0).1 htext
    obtain ⟨hplace, words, hwords, hleads, hword⟩ :=
      exists_derives_of_offersAt hquery hg hroot hblocks houtcome hoffers
    rcases hplace with rfl | hlt
    · exact .inl ⟨words, w, hwords, hleads, hword, rfl⟩
    · exact .inr ⟨outline, place, w, houtcome, by omega, hoffers, rfl⟩
  · rintro (⟨words, w, hwords, hleads, hword, rfl⟩ | ⟨outline, place, w, houtline, -, hoffers, rfl⟩)
    · have hagrees := (agrees_suggestQuery hquery).2 hleads
      cases outcome with
      | none => exact absurd hagrees (hsettles words hwords)
      | some outline =>
          obtain ⟨htracks, hexp, -⟩ := hsettles
          have hoffers := Outline.offersAt_of_yields hg htracks.regular (Nat.zero_le _) hexp
            (htracks.complete words hwords hagrees) hword
          rw [Int.natCast_zero, Int.sub_zero] at hoffers
          exact ⟨outline, rfl, (Outline.mem_offers_iff htracks.regular _ 0).2
            ⟨_, w, hoffers, rfl⟩⟩
    · obtain rfl : some outline = outcome := Option.some.inj (houtline.symm.trans houtcome)
      exact ⟨outline, rfl, (Outline.mem_offers_iff hsettles.1.regular _ 0).2
        ⟨place, w, hoffers, rfl⟩⟩

/-- Every word that continues the command is suggested. -/
theorem suggest_complete (files : FileTree) :
    ∃ answer, language.suggest files request = some answer ∧
      ∀ words w, language.grammar.Derives root words →
        (language.suggestQuery request).Leads words →
        words[(language.suggestQuery request).active]? = some w →
        w.rendered ∈ answer.suggestions := by
  obtain ⟨answer, hanswer, hmem⟩ := mem_suggestions_iff hquery hg hroot hblocks files
  refine ⟨answer, hanswer, fun words w hwords hleads hword => (hmem _).2 (.inl ?_)⟩
  exact ⟨words, w, hwords, hleads, hword, rfl⟩

/-- A stray word comes from an outline in which some part before the last of a sequence has an
unknown number of words. -/
theorem Strays.not_innerCounted {text : String} (h : language.Strays request text) :
    ∃ outline, language.suggestOutcome request = some (some outline) ∧
      ¬ outline.Everywhere Outline.InnerCounted := by
  obtain ⟨outline, place, w, houtline, hlt, hoffers, -⟩ := h
  refine ⟨outline, houtline, ?_⟩
  intro hcounted
  obtain ⟨outcome, houtcome, hsettles⟩ := exists_suggestOutcome hquery hg hroot hblocks
  obtain rfl : some outline = outcome := Option.some.inj (houtline.symm.trans houtcome)
  have hcourse : ((language.suggestQuery request).active : Int) =
      (language.suggestQuery request).active - (0 : Nat) := by simp
  have hplace := hoffers.place_eq_of_innerCounted hsettles.1.regular hcounted hcourse
  omega

/-- The suggestions are sound exactly if all stray words continue the command.  A stray word stands
two or more places after the cursor, and is offered only if the number of words of some part before
it is unknown. -/
theorem suggest_sound_iff (files : FileTree) :
    ∃ answer, language.suggest files request = some answer ∧
      ((∀ text ∈ answer.suggestions,
          language.Continues root (language.suggestQuery request) text) ↔
        ∀ text, language.Strays request text →
          language.Continues root (language.suggestQuery request) text) ∧
      ∀ text, language.Strays request text → text ∈ answer.suggestions ∧
        (∃ words place w, language.grammar.Derives root words ∧
          (language.suggestQuery request).Leads words ∧
          (language.suggestQuery request).active + 2 ≤ place ∧ words[place]? = some w ∧
          text = w.rendered) ∧
        ∃ outline, language.suggestOutcome request = some (some outline) ∧
          ¬ outline.Everywhere Outline.InnerCounted := by
  obtain ⟨answer, hanswer, hmem⟩ := mem_suggestions_iff hquery hg hroot hblocks files
  refine ⟨answer, hanswer, ⟨?_, ?_⟩, ?_⟩
  · intro hsound text hstrays
    exact hsound text ((hmem text).2 (.inr hstrays))
  · intro hstrays text htext
    rcases (hmem text).1 htext with hcontinues | hstray
    · exact hcontinues
    · exact hstrays text hstray
  · intro text hstrays
    refine ⟨(hmem text).2 (.inr hstrays), ?_, hstrays.not_innerCounted hquery hg hroot hblocks⟩
    obtain ⟨outline, place, w, houtline, hlt, hoffers, rfl⟩ := hstrays
    obtain ⟨hplace, words, hwords, hleads, hword⟩ :=
      exists_derives_of_offersAt hquery hg hroot hblocks houtline hoffers
    exact ⟨words, place, w, hwords, hleads, by omega, hword, rfl⟩

end PositionDetermined

/-! ### A stray word -/

/-- A language with the one command `a b c x y`, where `b c` is a rule of its own. -/
def nestedLanguage : Language where
  grammar :=
    { rules := #[⟨.leaf (.literal "a"), none⟩, ⟨.leaf (.literal "b"), none⟩,
        ⟨.leaf (.literal "c"), none⟩, ⟨.sequence [⟨1⟩, ⟨2⟩] false false, none⟩,
        ⟨.leaf (.literal "x"), none⟩, ⟨.leaf (.literal "y"), none⟩,
        ⟨.sequence [⟨0⟩, ⟨3⟩, ⟨4⟩, ⟨5⟩] false false, none⟩]
      root := some ⟨6⟩ }

theorem positionDetermined_nestedLanguage : nestedLanguage.grammar.PositionDetermined ⟨6⟩ :=
  Grammar.positionDetermined_of_isLayered (by decide +kernel) (by decide)

theorem derives_nestedLanguage {words : List Word} :
    nestedLanguage.grammar.Derives ⟨6⟩ words ↔
      words = ["a", "b", "c", "x", "y"].map Word.literal := by
  have ha : nestedLanguage.grammar.kind? ⟨0⟩ = some (.leaf (.literal "a")) := rfl
  have hb : nestedLanguage.grammar.kind? ⟨1⟩ = some (.leaf (.literal "b")) := rfl
  have hc : nestedLanguage.grammar.kind? ⟨2⟩ = some (.leaf (.literal "c")) := rfl
  have hbc : nestedLanguage.grammar.kind? ⟨3⟩ = some (.sequence [⟨1⟩, ⟨2⟩] false false) := rfl
  have hx : nestedLanguage.grammar.kind? ⟨4⟩ = some (.leaf (.literal "x")) := rfl
  have hy : nestedLanguage.grammar.kind? ⟨5⟩ = some (.leaf (.literal "y")) := rfl
  have hroot : nestedLanguage.grammar.kind? ⟨6⟩ =
      some (.sequence [⟨0⟩, ⟨3⟩, ⟨4⟩, ⟨5⟩] false false) := rfl
  simp [Grammar.derives_sequence hroot, Grammar.derives_sequence hbc, Grammar.derivesAll_cons,
    Grammar.derives_leaf ha, Grammar.derives_leaf hb, Grammar.derives_leaf hc,
    Grammar.derives_leaf hx, Grammar.derives_leaf hy, Leaf.word]

/-- The request behind `a` and a blank. -/
def nestedRequest : Request := .atEnd "a " [] none

theorem isInclude_nestedRequest :
    (nestedLanguage.suggestQuery nestedRequest).isInclude
      nestedLanguage.settings.includeCommands = false := by decide +kernel

theorem suggestQuery_nestedRequest :
    nestedLanguage.suggestQuery nestedRequest = ⟨["a", ""], 1, .suggest⟩ := by decide +kernel

theorem suggest_complete_nestedLanguage :
    ∃ answer, nestedLanguage.suggest {} nestedRequest = some answer ∧ "b" ∈ answer.suggestions := by
  obtain ⟨answer, hanswer, hmem⟩ := suggest_complete isInclude_nestedRequest
    positionDetermined_nestedLanguage rfl rfl {}
  have hleads : (nestedLanguage.suggestQuery nestedRequest).Leads
      (["a", "b", "c", "x", "y"].map Word.literal) := by
    rw [suggestQuery_nestedRequest]
    intro i word hi hword
    obtain rfl : i = 0 := Nat.lt_one_iff.1 hi
    cases hword
    exact .inr rfl
  have hword : (["a", "b", "c", "x", "y"].map Word.literal)[
      (nestedLanguage.suggestQuery nestedRequest).active]? = some (.literal "b") := by
    rw [suggestQuery_nestedRequest]
    rfl
  have hrendered : (Word.literal "b").rendered = "b" := by decide +kernel
  exact ⟨answer, hanswer, hrendered ▸ hmem _ _ (derives_nestedLanguage.2 rfl) hleads hword⟩

theorem mem_suggestions_nestedRequest :
    ∃ answer, nestedLanguage.suggest {} nestedRequest = some answer ∧
      "y" ∈ answer.suggestions := by
  obtain ⟨outcome, houtcome, -⟩ := exists_suggestOutcome isInclude_nestedRequest
    positionDetermined_nestedLanguage rfl rfl
  obtain ⟨answer, hanswer, hmem⟩ := exists_suggest_of_outcome {} isInclude_nestedRequest houtcome
  -- what is offered can be computed, and sorting it loses nothing
  have htexts : (nestedLanguage.suggestOutcome nestedRequest).map (Option.map fun outline =>
      (outline.offers nestedLanguage.grammar 1).texts) = some (some ["b", "y"]) := by decide +kernel
  rw [houtcome, Option.map_some, Option.some.injEq] at htexts
  obtain ⟨outline, rfl, hoffers⟩ := Option.map_eq_some_iff.1 htexts
  refine ⟨answer, hanswer, (hmem "y").2 ⟨outline, rfl, ?_⟩⟩
  rw [suggestQuery_nestedRequest]
  exact hoffers ▸ List.mem_cons_of_mem _ (List.mem_singleton_self _)

theorem not_continues_nestedRequest :
    ¬ nestedLanguage.Continues ⟨6⟩ (nestedLanguage.suggestQuery nestedRequest) "y" := by
  rintro ⟨words, w, hwords, -, hword, htext⟩
  rw [derives_nestedLanguage.1 hwords, suggestQuery_nestedRequest] at hword
  cases hword
  revert htext
  decide +kernel

/-- Behind `a`, one stray word is offered that does not continue the command. -/
theorem exists_strays_nestedRequest :
    ∃ text, nestedLanguage.Strays nestedRequest text ∧
      ¬ nestedLanguage.Continues ⟨6⟩ (nestedLanguage.suggestQuery nestedRequest) text := by
  obtain ⟨answer, hanswer, hsound, -⟩ := suggest_sound_iff isInclude_nestedRequest
    positionDetermined_nestedLanguage rfl rfl {}
  obtain ⟨answer', hanswer', hy⟩ := mem_suggestions_nestedRequest
  obtain rfl : answer' = answer := Option.some.inj (hanswer'.symm.trans hanswer)
  by_contra hnone
  refine not_continues_nestedRequest (hsound.2 ?_ "y" hy)
  intro text hstrays
  by_contra hcontinues
  exact hnone ⟨text, hstrays, hcontinues⟩

/-- Suggestions need not be sound: behind `a` the word `y` is suggested, although the only command
goes on with `b`. -/
theorem not_suggest_sound :
    nestedLanguage.grammar.PositionDetermined ⟨6⟩ ∧ nestedLanguage.grammar.root = some ⟨6⟩ ∧
      nestedRequest.blocks = [] ∧
      (nestedLanguage.suggestQuery nestedRequest).isInclude
        nestedLanguage.settings.includeCommands = false ∧
      ∃ answer, nestedLanguage.suggest {} nestedRequest = some answer ∧
        ¬ ∀ text ∈ answer.suggestions,
          nestedLanguage.Continues ⟨6⟩ (nestedLanguage.suggestQuery nestedRequest) text := by
  obtain ⟨answer, hanswer, hy⟩ := mem_suggestions_nestedRequest
  refine ⟨positionDetermined_nestedLanguage, rfl, rfl, isInclude_nestedRequest, answer, hanswer, ?_⟩
  intro hsound
  exact not_continues_nestedRequest (hsound "y" hy)

end Language

end Typeahead
