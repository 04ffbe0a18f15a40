/-
Leaving out the loads of types.

A load brings a type into play and stands for no word, so a sequence should read the same without
it.  In a flat language it does: what a rule shows does not depend on the loads, and a flat language
stays flat without them.  A load that finds no current type is different.  It is put off for ever,
its number of words stays unknown, and the words behind it are taken to stand one place earlier than
they do.

Main definitions:

* `Typeahead.Grammar.withoutLoads`, `Typeahead.Language.withoutLoads` — no sequence has a load among
  its children any more;
* `Typeahead.Grammar.Wordy` — every sequence has a child that is not a load.

Main results:

* `Typeahead.Grammar.displays_withoutLoads` — a rule shows the same without loads;
* `Typeahead.Language.Flat.withoutLoads` — a flat language stays flat without loads;
* `Typeahead.Language.suggest_withoutLoads` — the suggestions are the same without loads;
* `Typeahead.Language.not_suggest_withoutLoads` — they need not be where no type is current.
-/

import Typeahead.Proofs.FlatSuggestions

set_option relaxedAutoImplicit false
set_option autoImplicit false

namespace Typeahead

/-- The rule with only those children of a sequence that are kept. -/
def RuleKind.keepChildren (keep : RuleId → Bool) : RuleKind → RuleKind
  | .sequence children singleToken isError => .sequence (children.filter keep) singleToken isError
  | kind => kind

namespace RuleKind

theorem isSimple_keepChildren (keep : RuleId → Bool) (kind : RuleKind) :
    (kind.keepChildren keep).isSimple = kind.isSimple := by
  cases kind <;> rfl

theorem references_keepChildren_subset (keep : RuleId → Bool) (kind : RuleKind) :
    (kind.keepChildren keep).references ⊆ kind.references := by
  cases kind with
  | sequence children => exact List.filter_subset_self _
  | _ => exact List.Subset.refl _

/-- A rule other than a sequence keeps all it has. -/
theorem keepChildren_eq_iff {keep : RuleId → Bool} {kind kind' : RuleKind}
    (hsequence : ∀ children singleToken isError, kind' ≠ .sequence children singleToken isError) :
    kind.keepChildren keep = kind' ↔ kind = kind' := by
  cases kind with
  | sequence children singleToken isError =>
      constructor
      · intro h
        exact absurd h.symm (hsequence _ _ _)
      · intro h
        exact absurd h.symm (hsequence _ _ _)
  | _ => rfl

end RuleKind

namespace Grammar

/-- The grammar in which no sequence has a load among its children. -/
def withoutLoads (grammar : Grammar) : Grammar :=
  { grammar with
    rules := grammar.rules.map fun rule =>
      { rule with kind := rule.kind.keepChildren fun id => !grammar.isLoad id } }

/-- The grammars in which only words matter: there are neither blocks, nor commands of types, nor
free words that refer to anything, no load takes its type from a free word, and every sequence has a
child that is not a load. -/
structure Wordy (grammar : Grammar) : Prop where
  simple : ∀ id kind, grammar.kind? id = some kind → kind.isSimple = true
  untagged : ∀ id children singleToken isError,
    grammar.kind? id = some (.sequence children singleToken isError) →
      ∀ index child, children[index]? = some child → grammar.Untagged (some ⟨id, index⟩) child
  words : ∀ id children singleToken isError,
    grammar.kind? id = some (.sequence children singleToken isError) →
      ∃ child ∈ children, grammar.isLoad child = false

variable {grammar : Grammar} {query : Query} {id : RuleId} {place : Nat} {text : String}

/-! ### Look-up without loads -/

theorem kind?_withoutLoads (id : RuleId) :
    grammar.withoutLoads.kind? id =
      (grammar.kind? id).map (RuleKind.keepChildren fun id => !grammar.isLoad id) := by
  simp only [kind?, withoutLoads, Array.getElem?_map, Option.map_map]
  rfl

theorem kind?_withoutLoads_iff {kind : RuleKind}
    (hsequence : ∀ children singleToken isError, kind ≠ .sequence children singleToken isError) :
    grammar.withoutLoads.kind? id = some kind ↔ grammar.kind? id = some kind := by
  rw [kind?_withoutLoads, Option.map_eq_some_iff]
  constructor
  · rintro ⟨kind', hkind, hsame⟩
    rwa [(RuleKind.keepChildren_eq_iff hsequence).1 hsame] at hkind
  · intro hkind
    exact ⟨kind, hkind, (RuleKind.keepChildren_eq_iff hsequence).2 rfl⟩

/-- The sequences without loads are those of the grammar with their loads left out. -/
theorem kind?_withoutLoads_sequence {children : List RuleId} {singleToken isError : Bool} :
    grammar.withoutLoads.kind? id = some (.sequence children singleToken isError) ↔
      ∃ all, grammar.kind? id = some (.sequence all singleToken isError) ∧
        children = all.filter fun id => !grammar.isLoad id := by
  rw [kind?_withoutLoads, Option.map_eq_some_iff]
  constructor
  · rintro ⟨kind, hkind, hsame⟩
    cases kind with
    | sequence all =>
        cases hsame
        exact ⟨all, hkind, rfl⟩
    | _ => cases hsame
  · rintro ⟨all, hkind, rfl⟩
    exact ⟨_, hkind, rfl⟩

theorem displayName_withoutLoads (id : RuleId) :
    grammar.withoutLoads.displayName id = grammar.displayName id := by
  simp only [displayName, withoutLoads, Array.getElem?_map]
  cases grammar.rules[id.index]? <;> rfl

theorem word?_withoutLoads (id : RuleId) : grammar.withoutLoads.word? id = grammar.word? id := by
  simp only [word?, kind?_withoutLoads, displayName_withoutLoads]
  cases grammar.kind? id with
  | none => rfl
  | some kind => cases kind <;> rfl

theorem isLoad_withoutLoads (id : RuleId) : grammar.withoutLoads.isLoad id = grammar.isLoad id := by
  simp only [isLoad, kind?_withoutLoads]
  cases grammar.kind? id with
  | none => rfl
  | some kind => cases kind <;> rfl

/-- Without loads no load takes its type from a word. -/
theorem loadFrom?_withoutLoads (slot : Slot) : grammar.withoutLoads.loadFrom? slot = none := by
  refine loadFrom?_eq_none ?_
  intro children singleToken isError hkind child hchild load hload
  obtain ⟨all, -, rfl⟩ := kind?_withoutLoads_sequence.1 hkind
  have hkept := (List.mem_filter.1 hchild).2
  rw [kind?_withoutLoads_iff (by simp)] at hload
  simp [isLoad, hload] at hkept

theorem oneWord_withoutLoads (h : grammar.OneWord id) : grammar.withoutLoads.OneWord id := by
  induction h with
  | word hword => exact .word (by rwa [word?_withoutLoads])
  | choice hkind hne _ ih => exact .choice ((kind?_withoutLoads_iff (by simp)).2 hkind) hne ih
  | wrapper hkind _ ih => exact .wrapper ((kind?_withoutLoads_iff (by simp)).2 hkind) ih

/-! ### What a rule shows without loads -/

theorem admits_withoutLoads :
    grammar.withoutLoads.Admits query place id ↔ grammar.Admits query place id := by
  constructor
  · intro h
    induction h with
    | word hword hallows => exact .word (by rwa [← word?_withoutLoads]) hallows
    | choice hkind hmem _ ih => exact .choice ((kind?_withoutLoads_iff (by simp)).1 hkind) hmem ih
    | wrapper hkind _ ih => exact .wrapper ((kind?_withoutLoads_iff (by simp)).1 hkind) ih
  · intro h
    induction h with
    | word hword hallows => exact .word (by rwa [word?_withoutLoads]) hallows
    | choice hkind hmem _ ih => exact .choice ((kind?_withoutLoads_iff (by simp)).2 hkind) hmem ih
    | wrapper hkind _ ih => exact .wrapper ((kind?_withoutLoads_iff (by simp)).2 hkind) ih

/-- Several rules, one after another, show the same without the loads among them. -/
theorem partsDisplay_filter {children : List RuleId} :
    grammar.PartsDisplay query place (children.filter fun id => !grammar.isLoad id) text ↔
      grammar.PartsDisplay query place children text := by
  induction children generalizing place with
  | nil => rfl
  | cons child children ih =>
      cases hload : grammar.isLoad child with
      | true =>
          rw [List.filter_cons_of_neg (by simp [hload]), ih, partsDisplay_cons]
          simp [hload, not_displays_of_isLoad hload, not_admits_of_isLoad hload]
      | false =>
          rw [List.filter_cons_of_pos (by simp [hload]), partsDisplay_cons, partsDisplay_cons, ih,
            ih]

theorem partsDisplay_filter_withoutLoads {children : List RuleId} :
    grammar.withoutLoads.PartsDisplay query place
        (children.filter fun id => !grammar.isLoad id) text ↔
      grammar.withoutLoads.PartsDisplay query place children text := by
  have hfilter := @partsDisplay_filter grammar.withoutLoads query place text children
  simpa only [isLoad_withoutLoads] using hfilter

/-- A sequence shows what its children show without loads. -/
theorem displays_of_withoutLoads_sequence {children : List RuleId} {singleToken : Bool}
    (hkind : grammar.withoutLoads.kind? id = some (.sequence children singleToken false))
    (h : grammar.PartsDisplay query place children text) :
    grammar.Displays query place id text := by
  obtain ⟨all, hall, rfl⟩ := kind?_withoutLoads_sequence.1 hkind
  exact .sequence hall (partsDisplay_filter.1 h)

mutual

theorem Displays.withoutLoads {place : Nat} {id : RuleId} {text : String} :
    grammar.Displays query place id text → grammar.withoutLoads.Displays query place id text
  | .word hword hallows htext => .word (by rwa [word?_withoutLoads]) hallows htext
  | .choice hkind hmem hbranch =>
      .choice ((kind?_withoutLoads_iff (by simp)).2 hkind) hmem hbranch.withoutLoads
  | .wrapper hkind htarget =>
      .wrapper ((kind?_withoutLoads_iff (by simp)).2 hkind) htarget.withoutLoads
  | .sequence hkind hparts =>
      .sequence (kind?_withoutLoads_sequence.2 ⟨_, hkind, rfl⟩)
        (partsDisplay_filter_withoutLoads.2 hparts.withoutLoads)

theorem PartsDisplay.withoutLoads {place : Nat} {children : List RuleId} {text : String} :
    grammar.PartsDisplay query place children text →
      grammar.withoutLoads.PartsDisplay query place children text
  | .here hchild => .here hchild.withoutLoads
  | .load hload hrest => .load (by rwa [isLoad_withoutLoads]) hrest.withoutLoads
  | .next hadmits hrest => .next (admits_withoutLoads.2 hadmits) hrest.withoutLoads

end

mutual

theorem Displays.of_withoutLoads {place : Nat} {id : RuleId} {text : String} :
    grammar.withoutLoads.Displays query place id text → grammar.Displays query place id text
  | .word hword hallows htext => .word (by rwa [← word?_withoutLoads]) hallows htext
  | .choice hkind hmem hbranch =>
      .choice ((kind?_withoutLoads_iff (by simp)).1 hkind) hmem hbranch.of_withoutLoads
  | .wrapper hkind htarget =>
      .wrapper ((kind?_withoutLoads_iff (by simp)).1 hkind) htarget.of_withoutLoads
  | .sequence hkind hparts => displays_of_withoutLoads_sequence hkind hparts.of_withoutLoads

theorem PartsDisplay.of_withoutLoads {place : Nat} {children : List RuleId} {text : String} :
    grammar.withoutLoads.PartsDisplay query place children text →
      grammar.PartsDisplay query place children text
  | .here hchild => .here hchild.of_withoutLoads
  | .load hload hrest => .load (by rwa [← isLoad_withoutLoads]) hrest.of_withoutLoads
  | .next hadmits hrest => .next (admits_withoutLoads.1 hadmits) hrest.of_withoutLoads

end

/-- A rule shows the same without loads. -/
theorem displays_withoutLoads :
    grammar.withoutLoads.Displays query place id text ↔ grammar.Displays query place id text :=
  ⟨Displays.of_withoutLoads, Displays.withoutLoads⟩

end Grammar

/-! ### Languages without loads -/

namespace Language

variable {language : Language} {known : RuleId → Set (Option TypeId)} {rank : RuleId → Nat}

/-- The language in which no sequence has a load among its children. -/
def withoutLoads (language : Language) : Language :=
  { language with grammar := language.grammar.withoutLoads }

/-- The children of a flat sequence are flat without loads, whatever types are current. -/
theorem FlatChildren.withoutLoads {scopes : Set (Option TypeId)} {children : List RuleId}
    (h : language.FlatChildren known scopes children) :
    language.withoutLoads.FlatChildren (fun _ => Set.univ) Set.univ
      (children.filter fun id => !language.grammar.isLoad id) := by
  induction h with
  | last hchild _ hrest =>
      rw [List.filter_cons_of_pos (by simp [hchild])]
      refine .last ((Grammar.isLoad_withoutLoads _).trans hchild) (Set.subset_univ _) ?_
      intro other hother
      obtain ⟨hmem, hkept⟩ := List.mem_filter.1 hother
      simp [hrest other hmem] at hkept
  | word hchild _ ih =>
      rw [List.filter_cons_of_pos (by simp [hchild.isLoad_eq_false])]
      exact .word (Grammar.oneWord_withoutLoads hchild) ih
  | load hchild _ _ ih =>
      rw [List.filter_cons_of_neg (by simp [hchild.isLoad])]
      exact ih

/-- A flat language stays flat without loads, whatever types are current. -/
theorem Flat.withoutLoads (h : language.Flat known) :
    language.withoutLoads.Flat fun _ => Set.univ where
  simple id kind hkind := by
    rw [Language.withoutLoads, Grammar.kind?_withoutLoads] at hkind
    obtain ⟨kind', hkind', rfl⟩ := Option.map_eq_some_iff.1 hkind
    rw [RuleKind.isSimple_keepChildren]
    exact h.simple id kind' hkind'
  untagged id children singleToken isError _ index child _ last free _ _ :=
    Grammar.loadFrom?_withoutLoads ⟨id, index⟩
  choice _ _ _ _ _ := Set.subset_univ _
  wrapper _ _ _ _ := Set.subset_univ _
  flat id children singleToken isError hkind := by
    obtain ⟨all, hall, rfl⟩ := Grammar.kind?_withoutLoads_sequence.1 hkind
    exact (h.flat id all singleToken isError hall).withoutLoads

/-- Leaving out loads keeps the ranks. -/
theorem Ranked.withoutLoads (h : language.Ranked rank) : language.withoutLoads.Ranked rank where
  references id kind hkind target htarget := by
    rw [Language.withoutLoads, Grammar.kind?_withoutLoads] at hkind
    obtain ⟨kind', hkind', rfl⟩ := Option.map_eq_some_iff.1 hkind
    exact h.references id kind' hkind' target (kind'.references_keepChildren_subset _ htarget)
  commands id hkind :=
    h.commands id ((Grammar.kind?_withoutLoads_iff (by simp)).1 hkind)

/-- In a flat language without recursion the suggestions are the same without loads, for every
request under a type that is known where the request starts. -/
theorem suggest_withoutLoads (h : language.Flat known) (hranked : language.Ranked rank)
    (files : FileTree) (request : Request)
    (hscope : ∀ id, language.start? request.blocks = some id → request.scope ∈ known id) :
    ∃ answer answer', language.suggest files request = some answer ∧
      language.withoutLoads.suggest files request = some answer' ∧
      answer'.suggestions = answer.suggestions := by
  cases hquery : (language.suggestQuery request).isInclude language.settings.includeCommands with
  | true =>
      -- the paths after an include command have nothing to do with the grammar
      have hquery' : (language.withoutLoads.suggestQuery request).isInclude
          language.withoutLoads.settings.includeCommands = true := hquery
      rw [suggestQuery] at hquery hquery'
      simp only [suggest, hquery, hquery', if_true]
      exact ⟨_, _, rfl, rfl, rfl⟩
  | false =>
      obtain ⟨answer, hanswer, hmem⟩ := mem_suggestions_of_flat h hranked hscope hquery files
      have hquery' : (language.withoutLoads.suggestQuery request).isInclude
          language.withoutLoads.settings.includeCommands = false := hquery
      obtain ⟨answer', hanswer', hmem'⟩ := mem_suggestions_of_flat h.withoutLoads
        hranked.withoutLoads (fun _ _ => Set.mem_univ _) hquery' files
      refine ⟨answer, answer', hanswer, hanswer', ?_⟩
      rw [← rank_suggestions hquery hanswer, ← rank_suggestions hquery' hanswer']
      refine Ranking.rank_congr ?_
      intro text
      rw [hmem, hmem']
      exact exists_congr fun id => and_congr_right fun _ => Grammar.displays_withoutLoads

/-! ### A load between two words -/

/-- A language with the one command `edit speed`, in which `edit` brings the mover into play.  There
is a platform with a mover. -/
def speedLanguage : Language where
  grammar :=
    { rules := #[⟨.leaf (.literal "edit"), none⟩, ⟨.typeLoad ⟨.load, ["mover"], true, none⟩, none⟩,
        ⟨.leaf (.literal "speed"), none⟩, ⟨.sequence [⟨0⟩, ⟨1⟩, ⟨2⟩] false false, none⟩]
      root := some ⟨3⟩ }
  types := ((({} : TypeTable).add "platform" none).add "mover" none).addSymbol ⟨2⟩ "mover" ⟨3⟩

/-- The request behind `edit` and a blank. -/
def speedRequest (scope : Option TypeId) : Request := .atEnd "edit " [] scope

theorem kind?_speedLanguage {id : RuleId} {kind : RuleKind}
    (h : speedLanguage.grammar.kind? id = some kind) :
    (id, kind) ∈ [(⟨0⟩, .leaf (.literal "edit")), (⟨1⟩, .typeLoad ⟨.load, ["mover"], true, none⟩),
      (⟨2⟩, .leaf (.literal "speed")),
      ((⟨3⟩ : RuleId), .sequence [⟨0⟩, ⟨1⟩, ⟨2⟩] false false)] := by
  obtain ⟨_ | _ | _ | _ | index⟩ := id <;> cases h <;> decide

theorem sequence_speedLanguage {id : RuleId} {children : List RuleId} {singleToken isError : Bool}
    (h : speedLanguage.grammar.kind? id = some (.sequence children singleToken isError)) :
    id = ⟨3⟩ ∧ children = [⟨0⟩, ⟨1⟩, ⟨2⟩] := by
  have hmem := kind?_speedLanguage h
  simp only [List.mem_cons, Prod.mk.injEq, reduceCtorEq, and_false, RuleKind.sequence.injEq,
    List.not_mem_nil, or_false, false_or] at hmem
  exact ⟨hmem.1, hmem.2.1⟩

theorem wordy_speedLanguage : speedLanguage.grammar.Wordy where
  simple id kind hkind := by
    obtain ⟨_ | _ | _ | _ | index⟩ := id <;> cases hkind <;> rfl
  untagged id children singleToken isError hkind index child hchild last free hlast hfree := by
    have hmem := kind?_speedLanguage hfree
    simp at hmem
  words id children singleToken isError hkind := by
    obtain ⟨-, rfl⟩ := sequence_speedLanguage hkind
    exact ⟨⟨0⟩, by decide, rfl⟩

theorem ranked_speedLanguage : speedLanguage.Ranked RuleId.index :=
  ranked_index (by decide) (by decide)

/-- The platform is current where a command starts. -/
def speedScopes (id : RuleId) : Set (Option TypeId) :=
  if id = ⟨3⟩ then {some ⟨2⟩} else Set.univ

theorem flat_speedLanguage : speedLanguage.Flat speedScopes where
  simple := wordy_speedLanguage.simple
  untagged := wordy_speedLanguage.untagged
  choice id branches hkind := by
    have hmem := kind?_speedLanguage hkind
    simp at hmem
  wrapper id wrapping target hkind := by
    have hmem := kind?_speedLanguage hkind
    simp at hmem
  flat id children singleToken isError hkind := by
    obtain ⟨rfl, rfl⟩ := sequence_speedLanguage hkind
    have hedit : speedLanguage.grammar.OneWord ⟨0⟩ := .word (Grammar.word?_leaf rfl)
    have hload : speedLanguage.LoadsInside ⟨1⟩ := ⟨_, rfl, rfl, rfl, rfl⟩
    refine .word hedit (.load hload ?_ (.last rfl ?_ (by simp)))
    · simp [speedScopes]
    · simp [speedScopes]

/-- With the platform current, the same is suggested behind `edit` without the load. -/
theorem suggest_withoutLoads_speedLanguage :
    speedLanguage.Flat speedScopes ∧ speedLanguage.Ranked RuleId.index ∧
      ∃ answer answer', speedLanguage.suggest {} (speedRequest (some ⟨2⟩)) = some answer ∧
        speedLanguage.withoutLoads.suggest {} (speedRequest (some ⟨2⟩)) = some answer' ∧
        answer'.suggestions = answer.suggestions := by
  refine ⟨flat_speedLanguage, ranked_speedLanguage,
    suggest_withoutLoads flat_speedLanguage ranked_speedLanguage {} (speedRequest (some ⟨2⟩)) ?_⟩
  rintro id ⟨⟩
  simp [speedScopes, speedRequest, Request.atEnd]

/-- Without a current type the load is never looked through, and behind `edit` nothing is suggested,
although without the load `speed` is. -/
theorem not_suggest_withoutLoads :
    speedLanguage.grammar.Wordy ∧ speedLanguage.Ranked RuleId.index ∧
      ∃ answer answer', speedLanguage.suggest {} (speedRequest none) = some answer ∧
        speedLanguage.withoutLoads.suggest {} (speedRequest none) = some answer' ∧
        "speed" ∈ answer'.suggestions ∧ answer.suggestions = [] := by
  obtain ⟨answer, hanswer, hmem⟩ := @exists_suggest_of_texts speedLanguage (speedRequest none)
    (by decide +kernel) [] (by decide +kernel) {}
  obtain ⟨answer', hanswer', hmem'⟩ := @exists_suggest_of_texts speedLanguage.withoutLoads
    (speedRequest none) (by decide +kernel) ["speed"] (by decide +kernel) {}
  refine ⟨wordy_speedLanguage, ranked_speedLanguage, answer, answer', hanswer, hanswer', ?_, ?_⟩
  · rw [hmem']
    exact List.mem_singleton_self _
  · exact List.eq_nil_iff_forall_not_mem.2 fun text htext => by simpa using (hmem text).1 htext

end Language

end Typeahead
