/-
What further names change.

Names that a document defines are listed at the cursor and nowhere else.  So whatever is entered into
the symbol index, every suggestion stays, the new ones are names that were entered, and the rest of the
answer does not change.  A hint lists no names at all, so it does not depend on the symbol index or on
the providers.

Main definitions:

* `Typeahead.SymbolEntry` — one entry of a symbol index;
* `Typeahead.SymbolIndex.enterAll`, `Typeahead.Language.enterAll` — make several entries;
* `Typeahead.NameProvider.Appends` — the provider appends names of its own, whatever it is given;
* `Typeahead.Completion.Extends` — an answer with further names.

Main results:

* `Typeahead.Language.candidates_enterAll` — what further entries add to the names of a reference;
* `Typeahead.Language.hint_names` — hints do not depend on names;
* `Typeahead.Language.suggest_enterAll` — what further entries add to the suggestions.
-/

import Typeahead.Proofs.Lockstep

set_option relaxedAutoImplicit false
set_option autoImplicit false

namespace Typeahead

/-! ### Entries of a symbol index -/

/-- One entry of a symbol index. -/
inductive SymbolEntry where
  | definition (path : TypePath) (name : String)
  | baseType (path : TypePath) (name : String)
  | known (kind name : String)
  deriving DecidableEq, Repr

/-- The name that is entered. -/
def SymbolEntry.entered : SymbolEntry → String
  | .definition _ name | .baseType _ name | .known _ name => name

namespace SymbolIndex

/-- Makes one entry. -/
def enter (index : SymbolIndex) : SymbolEntry → SymbolIndex
  | .definition path name => index.addDefinition path name
  | .baseType path name => index.addBaseType path name
  | .known kind name => index.addName kind name

/-- Makes several entries, one after another. -/
def enterAll (index : SymbolIndex) (entries : List SymbolEntry) : SymbolIndex :=
  entries.foldl enter index

end SymbolIndex

/-- The language after further entries into its symbol index. -/
def Language.enterAll (language : Language) (entries : List SymbolEntry) : Language :=
  { language with symbols := language.symbols.enterAll entries }

/-- The provider appends names of its own, whatever names it is given. -/
def NameProvider.Appends (provider : NameProvider) : Prop :=
  ∃ own : String → List String, ∀ kind names, provider kind names = names ++ own kind

namespace Adds

variable {extra : String → Prop} {names names' names'' : List String}

theorem trans (h : Adds extra names names') (h' : Adds extra names' names'') :
    Adds extra names names'' where
  left name hname := h'.left name (h.left name hname)
  right name hname := (h'.right name hname).elim (h.right name) .inr

theorem append {more more' : List String} (h : Adds extra names names')
    (hmore : Adds extra more more') : Adds extra (names ++ more) (names' ++ more') where
  left := by
    intro name hname
    rcases List.mem_append.1 hname with hname | hname
    · exact List.mem_append_left _ (h.left name hname)
    · exact List.mem_append_right _ (hmore.left name hname)
  right := by
    intro name hname
    rcases List.mem_append.1 hname with hname | hname
    · exact (h.right name hname).imp_left (List.mem_append_left _)
    · exact (hmore.right name hname).imp_left (List.mem_append_right _)

/-- Names that are appended are extra ones. -/
theorem of_append {more : List String} (h : ∀ name ∈ more, extra name) :
    Adds extra names (names ++ more) where
  left _ hname := List.mem_append_left _ hname
  right name hname := (List.mem_append.1 hname).imp_right (h name)

theorem inOrder (h : Adds extra names names') : Adds extra (inOrder names) (inOrder names') where
  left name hname := mem_sortedUnique.2 (h.left name (mem_sortedUnique.1 hname))
  right name hname := (h.right name (mem_sortedUnique.1 hname)).imp_left mem_sortedUnique.2

/-- Providers that only append do not see the names they are given. -/
theorem askAll {providers : List NameProvider}
    (hproviders : ∀ provider ∈ providers, provider.Appends) (kind : String)
    (h : Adds extra names names') :
    Adds extra (NameProvider.askAll providers kind names)
      (NameProvider.askAll providers kind names') := by
  induction providers generalizing names names' with
  | nil => exact h
  | cons provider providers ih =>
      obtain ⟨own, hown⟩ := hproviders provider (List.mem_cons_self ..)
      refine ih (fun other hother => hproviders other (List.mem_cons_of_mem _ hother)) ?_
      simp only [hown]
      exact h.append (.refl _)

end Adds

namespace SymbolIndex

variable {extra : String → Prop}

/-- The second index gives the names of the first one and some of the extra names. -/
structure Extends (extra : String → Prop) (index index' : SymbolIndex) : Prop where
  definitions : ∀ path, Adds extra (index.definitions path) (index'.definitions path)
  baseTypes : ∀ path, Adds extra (index.baseTypes path) (index'.baseTypes path)
  names : ∀ kind, Adds extra (index.names kind) (index'.names kind)

theorem adds_filter {α : Type} (entries : List (α × String)) (p : α × String → Bool) {key : α}
    {name : String} (hextra : extra name) :
    Adds extra ((entries.filter p).map Prod.snd)
      (((entries ++ [(key, name)]).filter p).map Prod.snd) := by
  rw [List.filter_append, List.map_append]
  refine .of_append ?_
  intro other hother
  obtain ⟨entry, hentry, rfl⟩ := List.mem_map.1 hother
  rw [List.mem_singleton.1 (List.mem_filter.1 hentry).1]
  exact hextra

theorem extends_enter (index : SymbolIndex) {entry : SymbolEntry} (hextra : extra entry.entered) :
    index.Extends extra (index.enter entry) := by
  cases entry with
  | definition path name =>
      exact ⟨fun _ => adds_filter _ _ hextra, fun _ => .refl _, fun _ => .refl _⟩
  | baseType path name =>
      exact ⟨fun _ => .refl _, fun _ => adds_filter _ _ hextra, fun _ => .refl _⟩
  | known kind name =>
      exact ⟨fun _ => .refl _, fun _ => .refl _, fun _ => (adds_filter _ _ hextra).inOrder⟩

theorem extends_enterAll (index : SymbolIndex) {entries : List SymbolEntry}
    (hextra : ∀ entry ∈ entries, extra entry.entered) :
    index.Extends extra (index.enterAll entries) := by
  induction entries generalizing index with
  | nil => exact ⟨fun _ => .refl _, fun _ => .refl _, fun _ => .refl _⟩
  | cons entry entries ih =>
      have hentry := extends_enter index (hextra entry (List.mem_cons_self ..))
      have hrest := ih (index.enter entry) fun other hother =>
        hextra other (List.mem_cons_of_mem _ hother)
      exact
        { definitions := fun path => (hentry.definitions path).trans (hrest.definitions path)
          baseTypes := fun path => (hentry.baseTypes path).trans (hrest.baseTypes path)
          names := fun kind => (hentry.names kind).trans (hrest.names kind) }

end SymbolIndex

/-! ### Hints -/

namespace Language

variable {language : Language}

/-- Unfolding does not look at names. -/
theorem unfoldWithin_names (symbols : SymbolIndex) (providers : List NameProvider) (fuel : Nat)
    (scope : Option TypeId) (openBlock : Bool) (rule : Option RuleId) (node : Outline) :
    ({ language with symbols, providers } : Language).unfoldWithin fuel scope openBlock rule node =
      language.unfoldWithin fuel scope openBlock rule node := by
  induction fuel generalizing openBlock rule node with
  | zero => rfl
  | succ fuel ih =>
      cases rule with
      | none => rfl
      | some id => simp only [unfoldWithin, ih]

section Hints

variable {query : Query} (hmode : query.mode = .hint) (symbols : SymbolIndex)
  (providers : List NameProvider)
include hmode

theorem growDeferred_names (scope : Option TypeId) (index : Int) (mark : Mark) (part : Deferred) :
    ({ language with symbols, providers } : Language).growDeferred query scope index mark part =
      language.growDeferred query scope index mark part := by
  have hlists : query.listsNamesAt index = false := by simp [Query.listsNamesAt, hmode]
  simp only [growDeferred, hlists, unfold, unfoldWithin_names]
  rfl

theorem grow_names (limit : Int) (scope : Option TypeId) (index : Int) (outline : Outline) :
    ({ language with symbols, providers } : Language).grow query limit scope index outline =
      language.grow query limit scope index outline := by
  induction outline generalizing scope index with
  | blank | word | scope => rfl
  | deferred mark part => simp only [grow, growDeferred_names hmode]
  | sequence mark info parts ih =>
      have hparts : ∀ scope index,
          ({ language with symbols, providers } : Language).growParts query limit scope index parts =
            language.growParts query limit scope index parts := by
        induction parts with
        | nil => intro scope index; rfl
        | cons part parts ihparts =>
            intro scope index
            have hrest := ihparts fun other hother => ih other (List.mem_cons_of_mem _ hother)
            simp only [growParts, ih part (List.mem_cons_self ..), hrest]
      simp only [grow, hparts]
  | choice mark branches ih =>
      have hbranches :
          ({ language with symbols, providers } : Language).growBranches query limit scope index
            branches = language.growBranches query limit scope index branches := by
        induction branches with
        | nil => rfl
        | cons branch branches ihbranches =>
            have hrest := ihbranches fun other hother => ih other (List.mem_cons_of_mem _ hother)
            simp only [growBranches, ih branch (List.mem_cons_self ..), hrest]
      simp only [grow, hbranches]

theorem settleWithin_names (limit : Int) (scope : Option TypeId) (passes : Nat)
    (outline : Outline) :
    ({ language with symbols, providers } : Language).settleWithin query scope limit passes outline =
      language.settleWithin query scope limit passes outline := by
  induction passes generalizing outline with
  | zero => rfl
  | succ passes ih => simp only [settleWithin, grow_names hmode, ih]

end Hints

theorem seedBranches_names (query : Query) (scope : Option TypeId) (symbols : SymbolIndex)
    (providers : List NameProvider) (blocks : List (Option RuleId)) :
    ({ language with symbols, providers } : Language).seedBranches query scope blocks =
      language.seedBranches query scope blocks := by
  induction blocks with
  | nil => rfl
  | cons block blocks ih =>
      simp only [seedBranches, blockNode, unfold, unfoldWithin_names, ih]
      rfl

theorem settle_names {query : Query} (hmode : query.mode = .hint) (symbols : SymbolIndex)
    (providers : List NameProvider) (scope : Option TypeId) (blocks : List RuleId) (limit : Int) :
    ({ language with symbols, providers } : Language).settle query scope blocks limit =
      language.settle query scope blocks limit := by
  have hrun : ({ language with symbols, providers } : Language).settleWithin query scope limit
      (language.passBudget query blocks limit) =
        language.settleWithin query scope limit (language.passBudget query blocks limit) :=
    funext (settleWithin_names hmode symbols providers limit scope _)
  simp only [settle, seed, seedBranches_names]
  exact congrArg _ hrun

/-- A hint does not depend on the names that are known. -/
theorem hint_names (symbols : SymbolIndex) (providers : List NameProvider) (request : Request) :
    ({ language with symbols, providers } : Language).hint request = language.hint request := by
  have hmode : (Reading.ofText request.text request.cursor .hint
      language.settings.includeCommands).query.pastCommand.mode = .hint := by
    simp only [Reading.ofText, Query.pastCommand]
    split <;> split <;> rfl
  simp only [hint, settle_names hmode]

/-! ### Suggestions -/

theorem candidates_enterAll {extra : String → Prop}
    (hproviders : ∀ provider ∈ language.providers, provider.Appends) {entries : List SymbolEntry}
    (hextra : ∀ entry ∈ entries, extra entry.entered) (scope : Option TypeId)
    (reference : SymbolRef) :
    Adds extra (language.candidates scope reference)
      ((language.enterAll entries).candidates scope reference) := by
  have hindex := language.symbols.extends_enterAll hextra
  unfold candidates
  split
  · exact .refl _
  · exact (hindex.definitions _).append (hindex.baseTypes _)
  · exact (hindex.names _).askAll hproviders _

end Language

/-- The second answer has the suggestions of the first one and some of the extra names, and is the same
in all else. -/
structure Completion.Extends (extra : String → Prop) (completion completion' : Completion) :
    Prop where
  insertPosition : completion'.insertPosition = completion.insertPosition
  replaceLength : completion'.replaceLength = completion.replaceLength
  lastToken : completion'.lastToken = completion.lastToken
  partialToken : completion'.partialToken = completion.partialToken
  left : ∀ text ∈ completion.suggestions, text ∈ completion'.suggestions
  right : ∀ text ∈ completion'.suggestions, text ∈ completion.suggestions ∨
    ∃ name, extra name ∧ text = (Word.literal name).rendered

namespace Language

/-- After further entries into the symbol index there is an answer exactly if there was one before.
Every suggestion stays, every new one is a name that was entered, with a backslash if it starts with
`<`, and the rest of the answer is the same.  A hint does not depend on the symbol index and the
providers at all. -/
theorem suggest_enterAll (language : Language) (entries : List SymbolEntry)
    (hproviders : ∀ provider ∈ language.providers, provider.Appends) (files : FileTree)
    (request : Request) :
    Option.Rel (Completion.Extends fun name => ∃ entry ∈ entries, entry.entered = name)
      (language.suggest files request) ((language.enterAll entries).suggest files request) ∧
    ∀ symbols symbols' providers providers',
      ({ language with symbols, providers } : Language).hint request =
        ({ language with symbols := symbols', providers := providers' } : Language).hint request := by
  have hextends : language.Extends (fun name => ∃ entry ∈ entries, entry.entered = name)
      (language.enterAll entries) :=
    { grammar := language.grammar.sameBranches_refl
      types := rfl
      settings := rfl
      candidates := candidates_enterAll hproviders fun entry hentry => ⟨entry, hentry, rfl⟩ }
  refine ⟨?_, ?_⟩
  · rw [suggest_eq_suggestWithin, suggest_eq_suggestWithin]
    refine hextends.suggestWithin ?_ ?_ _ files request
    · intro completion
      exact ⟨rfl, rfl, rfl, rfl, fun _ htext => htext, fun _ htext => .inl htext⟩
    · intro reading outcome outcome' houtcome
      cases houtcome with
      | none => exact ⟨rfl, rfl, rfl, rfl, fun _ htext => htext, fun _ htext => .inl htext⟩
      | some hsimilar =>
          have hoffers := hsimilar.offers hextends.grammar.closing? reading.query.active
          exact
            { insertPosition := rfl
              replaceLength := rfl
              lastToken := congrArg (!·) hoffers.more
              partialToken := rfl
              left := fun text htext =>
                Ranking.mem_rank.2 (hoffers.left text (Ranking.mem_rank.1 htext))
              right := fun text htext =>
                (hoffers.right text (Ranking.mem_rank.1 htext)).imp_left Ranking.mem_rank.2 }
  · intro symbols symbols' providers providers'
    exact (hint_names symbols providers request).trans
      (hint_names symbols' providers' request).symm

/-- A language with the command `use` of a side, which a document defines, and with a provider of
names. -/
def sideLanguage : Language where
  grammar :=
    { rules := #[⟨.leaf (.literal "use"), none⟩,
        ⟨.freeWord { kind := "side", refersToType := true }, none⟩,
        ⟨.sequence [⟨0⟩, ⟨1⟩] false false, none⟩]
      root := some ⟨2⟩ }
  symbols := { definitionEntries := [(["side"], "blue")] }
  providers := [fun _ names => names ++ ["own"]]

/-- Once the side `<red>` is entered, it is suggested behind `use` with a backslash, and nothing else
changes. -/
theorem suggest_enterAll_sideLanguage :
    ∃ completion completion',
      sideLanguage.suggest {} (.atEnd "use " [] none) = some completion ∧
      (sideLanguage.enterAll [.definition ["side"] "<red>"]).suggest {} (.atEnd "use " [] none) =
        some completion' ∧
      "\\<red>" ∈ completion'.suggestions ∧
      completion.Extends (fun name =>
        ∃ entry ∈ [SymbolEntry.definition ["side"] "<red>"], entry.entered = name) completion' := by
  have hproviders : ∀ provider ∈ sideLanguage.providers, provider.Appends := by
    intro provider hprovider
    rw [List.mem_singleton.1 hprovider]
    exact ⟨fun _ => ["own"], fun _ _ => rfl⟩
  obtain ⟨hrel, -⟩ := suggest_enterAll sideLanguage [.definition ["side"] "<red>"] hproviders {}
    (.atEnd "use " [] none)
  have htexts : ((sideLanguage.enterAll [.definition ["side"] "<red>"]).suggestOutcome
      (.atEnd "use " [] none)).map (Option.map fun outline =>
        (outline.offers sideLanguage.grammar 1).texts) =
        some (some ["<side>", "blue", "\\<red>"]) := by decide +kernel
  obtain ⟨outcome, houtcome, htexts⟩ := Option.map_eq_some_iff.1 htexts
  obtain ⟨outline, rfl, hoffers⟩ := Option.map_eq_some_iff.1 htexts
  obtain ⟨completion', hsuggest', hmem⟩ :=
    exists_suggest_of_outcome {} (by decide +kernel) houtcome
  rw [hsuggest'] at hrel
  generalize hsuggest : sideLanguage.suggest {} (.atEnd "use " [] none) = answer at hrel
  cases hrel with
  | @some completion _ hextends =>
      refine ⟨completion, completion', rfl, hsuggest', ?_, hextends⟩
      exact (hmem _).2 ⟨outline, rfl, hoffers ▸ by simp⟩

end Language

end Typeahead
