/-
Flat commands.

In a flat command every part is a single word or loads a type, up to the last part that is more than
a load; that one may be anything, and only loads may follow it.  If there is a current type at the
loads between the words, then every word has a known place, and the suggestions can be read off the
rules: a rule shows a text if the words before it admit what was typed at their places, where loads
take up no place.  Unfolding, growing and pruning do not change what an outline shows, and once
nothing is left to unfold the walk offers exactly what is shown.

Which type is current depends on the loads before a part and on whether they have been looked at, so
every rule comes with a set of types that may be current where it is unfolded.

Main definitions:

* `Typeahead.Grammar.OneWord` — the rules for a single word;
* `Typeahead.Language.scopesBehind` — the types that may be current behind a load;
* `Typeahead.Language.FlatChildren`, `Typeahead.Language.Flat` — flat sequences and languages;
* `Typeahead.Grammar.Displays` — the texts that a rule shows at the place of the query;
* `Typeahead.Outline.Displays`, `Typeahead.Outline.Flat` — the same for outlines.

Main results:

* `Typeahead.Language.unfoldWithin_opened` — a rule is unfolded into an outline that shows the same.
-/

import Typeahead.Proofs.NameLists
import Typeahead.Proofs.RightRecursion

set_option relaxedAutoImplicit false
set_option autoImplicit false

namespace Typeahead

/-- The word may stand at the place: it is a pattern, or the query accepts it there. -/
def Query.Allows (query : Query) (place : Nat) (w : Word) : Prop :=
  w.isPattern = true ∨ query.accepts w.text place = true

/-- The rules that have to do with neither blocks nor the commands of types, and in which no free
word refers to anything. -/
def RuleKind.isSimple : RuleKind → Bool
  | .freeWord free => (RuleKind.freeWord free).isSingleWord
  | .block .. | .typeCommand => false
  | _ => true

/-- The rules without words of their own or of other rules. -/
def RuleKind.isSilent : RuleKind → Bool
  | .sequence _ _ isError => isError
  | .wrapper _ target => target.isNone
  | .typeLoad _ | .unknown _ => true
  | _ => false

namespace Grammar

/-! ### Words, loads and wrappers -/

/-- The word of a rule for a word. -/
def word? (grammar : Grammar) (id : RuleId) : Option Word :=
  match grammar.kind? id with
  | some (.leaf leaf) => some (leaf.word (grammar.displayName id))
  | some (.freeWord free) => some (.pattern free.placeholder)
  | _ => none

/-- The rule brings a type into play. -/
def isLoad (grammar : Grammar) (id : RuleId) : Bool :=
  match grammar.kind? id with
  | some (.typeLoad _) => true
  | _ => false

/-- The first rule stands for the second one under any number of other names. -/
inductive Unwraps (grammar : Grammar) : RuleId → RuleId → Prop
  | refl (id : RuleId) : Unwraps grammar id id
  | wrapper {id target last : RuleId} {wrapping : Wrapping} :
      grammar.kind? id = some (.wrapper wrapping (some target)) → Unwraps grammar target last →
        Unwraps grammar id last

/-- No load takes its type from a free word that the rule puts into the slot. -/
def Untagged (grammar : Grammar) (slot : Option Slot) (id : RuleId) : Prop :=
  ∀ last free, grammar.Unwraps id last → grammar.kind? last = some (.freeWord free) →
    slot.bind grammar.loadFrom? = none

/-- The rules for a single word: fixed and free words, and choices of such. -/
inductive OneWord (grammar : Grammar) : RuleId → Prop
  | word {id : RuleId} {w : Word} : grammar.word? id = some w → OneWord grammar id
  | choice {id : RuleId} {branches : List RuleId} : grammar.kind? id = some (.choice branches) →
      branches ≠ [] → (∀ branch ∈ branches, OneWord grammar branch) → OneWord grammar id
  | wrapper {id target : RuleId} {wrapping : Wrapping} :
      grammar.kind? id = some (.wrapper wrapping (some target)) → OneWord grammar target →
        OneWord grammar id

/-! ### What a rule shows -/

/-- A single word of the rule may stand at the place. -/
inductive Admits (grammar : Grammar) (query : Query) (place : Nat) : RuleId → Prop
  | word {id : RuleId} {w : Word} : grammar.word? id = some w → query.Allows place w →
      Admits grammar query place id
  | choice {id branch : RuleId} {branches : List RuleId} :
      grammar.kind? id = some (.choice branches) → branch ∈ branches →
        Admits grammar query place branch → Admits grammar query place id
  | wrapper {id target : RuleId} {wrapping : Wrapping} :
      grammar.kind? id = some (.wrapper wrapping (some target)) →
        Admits grammar query place target → Admits grammar query place id

mutual

/-- The rule, put at a place, has a word with the given text at the active place, and the words
before it may stand at theirs. -/
inductive Displays (grammar : Grammar) (query : Query) : Nat → RuleId → String → Prop
  | word {id : RuleId} {w : Word} : grammar.word? id = some w → query.Allows query.active w →
      w.text.isEmpty = false → Displays grammar query query.active id w.rendered
  | choice {id branch : RuleId} {branches : List RuleId} {place : Nat} {text : String} :
      grammar.kind? id = some (.choice branches) → branch ∈ branches →
        Displays grammar query place branch text → Displays grammar query place id text
  | wrapper {id target : RuleId} {wrapping : Wrapping} {place : Nat} {text : String} :
      grammar.kind? id = some (.wrapper wrapping (some target)) →
        Displays grammar query place target text → Displays grammar query place id text
  | sequence {id : RuleId} {children : List RuleId} {singleToken : Bool} {place : Nat}
      {text : String} : grammar.kind? id = some (.sequence children singleToken false) →
        PartsDisplay grammar query place children text → Displays grammar query place id text

/-- One of several rules, one after another, shows the text.  A load takes up no place, and any
other rule that is passed takes up one. -/
inductive PartsDisplay (grammar : Grammar) (query : Query) : Nat → List RuleId → String → Prop
  | here {child : RuleId} {rest : List RuleId} {place : Nat} {text : String} :
      Displays grammar query place child text →
        PartsDisplay grammar query place (child :: rest) text
  | load {child : RuleId} {rest : List RuleId} {place : Nat} {text : String} :
      grammar.isLoad child = true → PartsDisplay grammar query place rest text →
        PartsDisplay grammar query place (child :: rest) text
  | next {child : RuleId} {rest : List RuleId} {place : Nat} {text : String} :
      Admits grammar query place child → PartsDisplay grammar query (place + 1) rest text →
        PartsDisplay grammar query place (child :: rest) text

end

variable {grammar : Grammar} {query : Query} {id : RuleId} {place : Nat} {text : String}

/-! One lemma for each kind of rule. -/

theorem word?_leaf {leaf : Leaf} (h : grammar.kind? id = some (.leaf leaf)) :
    grammar.word? id = some (leaf.word (grammar.displayName id)) := by
  simp [word?, h]

theorem word?_free {free : FreeWord} (h : grammar.kind? id = some (.freeWord free)) :
    grammar.word? id = some (.pattern free.placeholder) := by
  simp [word?, h]

theorem word?_isBlock {w : Word} (h : grammar.word? id = some w) : w.isBlock = false := by
  rw [word?] at h
  split at h
  · cases h
    exact Leaf.word_isBlock ..
  · cases h
    rfl
  · cases h

theorem admits_word {w : Word} (h : grammar.word? id = some w) :
    grammar.Admits query place id ↔ query.Allows place w := by
  constructor
  · rintro (⟨h', hallows⟩ | ⟨h', -, -⟩ | ⟨h', -⟩)
    · rw [h] at h'
      cases h'
      exact hallows
    · simp [word?, h'] at h
    · simp [word?, h'] at h
  · exact .word h

theorem admits_choice {branches : List RuleId} (h : grammar.kind? id = some (.choice branches)) :
    grammar.Admits query place id ↔ ∃ branch ∈ branches, grammar.Admits query place branch := by
  constructor
  · rintro (⟨h', -⟩ | ⟨h', hmem, hbranch⟩ | ⟨h', -⟩)
    · simp [word?, h] at h'
    · rw [h] at h'
      cases h'
      exact ⟨_, hmem, hbranch⟩
    · rw [h] at h'
      cases h'
  · rintro ⟨branch, hmem, hbranch⟩
    exact .choice h hmem hbranch

theorem admits_wrapper {target : RuleId} {wrapping : Wrapping}
    (h : grammar.kind? id = some (.wrapper wrapping (some target))) :
    grammar.Admits query place id ↔ grammar.Admits query place target := by
  constructor
  · rintro (⟨h', -⟩ | ⟨h', -, -⟩ | ⟨h', htarget⟩)
    · simp [word?, h] at h'
    · rw [h] at h'
      cases h'
    · rw [h] at h'
      cases h'
      exact htarget
  · exact .wrapper h

theorem displays_word {w : Word} (h : grammar.word? id = some w) :
    grammar.Displays query place id text ↔ place = query.active ∧ query.Allows place w ∧
      w.text.isEmpty = false ∧ text = w.rendered := by
  constructor
  · rintro (⟨h', hallows, htext⟩ | ⟨h', -, -⟩ | ⟨h', -⟩ | ⟨h', -⟩)
    · rw [h] at h'
      cases h'
      exact ⟨rfl, hallows, htext, rfl⟩
    all_goals simp [word?, h'] at h
  · rintro ⟨rfl, hallows, htext, rfl⟩
    exact .word h hallows htext

theorem displays_choice {branches : List RuleId} (h : grammar.kind? id = some (.choice branches)) :
    grammar.Displays query place id text ↔
      ∃ branch ∈ branches, grammar.Displays query place branch text := by
  constructor
  · rintro (⟨h', -, -⟩ | ⟨h', hmem, hbranch⟩ | ⟨h', -⟩ | ⟨h', -⟩)
    · simp [word?, h] at h'
    · rw [h] at h'
      cases h'
      exact ⟨_, hmem, hbranch⟩
    all_goals simp [h] at h'
  · rintro ⟨branch, hmem, hbranch⟩
    exact .choice h hmem hbranch

theorem displays_wrapper {target : RuleId} {wrapping : Wrapping}
    (h : grammar.kind? id = some (.wrapper wrapping (some target))) :
    grammar.Displays query place id text ↔ grammar.Displays query place target text := by
  constructor
  · rintro (⟨h', -, -⟩ | ⟨h', -, -⟩ | ⟨h', htarget⟩ | ⟨h', -⟩)
    · simp [word?, h] at h'
    · simp [h] at h'
    · rw [h] at h'
      cases h'
      exact htarget
    · simp [h] at h'
  · exact .wrapper h

theorem displays_sequence {children : List RuleId} {singleToken : Bool}
    (h : grammar.kind? id = some (.sequence children singleToken false)) :
    grammar.Displays query place id text ↔ grammar.PartsDisplay query place children text := by
  constructor
  · rintro (⟨h', -, -⟩ | ⟨h', -, -⟩ | ⟨h', -⟩ | ⟨h', hparts⟩)
    · simp [word?, h] at h'
    · simp [h] at h'
    · simp [h] at h'
    · rw [h] at h'
      cases h'
      exact hparts
  · exact .sequence h

/-- A rule that is missing or has no words shows nothing. -/
theorem not_displays_of_isSilent (h : ∀ kind, grammar.kind? id = some kind → kind.isSilent = true) :
    ¬ grammar.Displays query place id text := by
  rintro (⟨hword, -, -⟩ | ⟨hkind, -, -⟩ | ⟨hkind, -⟩ | ⟨hkind, -⟩)
  · rw [word?] at hword
    split at hword
    · next hkind => simpa [RuleKind.isSilent] using h _ hkind
    · next hkind => simpa [RuleKind.isSilent] using h _ hkind
    · cases hword
  all_goals simpa [RuleKind.isSilent] using h _ hkind

theorem exists_load_of_isLoad (h : grammar.isLoad id = true) :
    ∃ load, grammar.kind? id = some (.typeLoad load) := by
  rw [isLoad] at h
  split at h
  · next load hkind => exact ⟨load, hkind⟩
  · cases h

theorem not_admits_of_isLoad (h : grammar.isLoad id = true) : ¬ grammar.Admits query place id := by
  obtain ⟨load, hkind⟩ := exists_load_of_isLoad h
  rintro (⟨h', -⟩ | ⟨h', -, -⟩ | ⟨h', -⟩) <;> simp [word?, hkind] at h'

theorem OneWord.isLoad_eq_false (h : grammar.OneWord id) : grammar.isLoad id = false := by
  by_contra hload
  obtain ⟨load, hkind⟩ := exists_load_of_isLoad (by simpa using hload)
  rcases h with h' | ⟨h', -, -⟩ | ⟨h', -⟩ <;> simp [word?, hkind] at h'

theorem not_displays_of_isLoad (h : grammar.isLoad id = true) :
    ¬ grammar.Displays query place id text := by
  obtain ⟨load, hload⟩ := exists_load_of_isLoad h
  refine not_displays_of_isSilent ?_
  intro kind hkind
  rw [hload] at hkind
  cases hkind
  rfl

theorem partsDisplay_cons {child : RuleId} {rest : List RuleId} :
    grammar.PartsDisplay query place (child :: rest) text ↔
      grammar.Displays query place child text ∨
        (grammar.isLoad child = true ∧ grammar.PartsDisplay query place rest text) ∨
        (grammar.Admits query place child ∧ grammar.PartsDisplay query (place + 1) rest text) := by
  constructor
  · rintro (h | ⟨hload, hrest⟩ | ⟨hadmits, hrest⟩)
    · exact .inl h
    · exact .inr (.inl ⟨hload, hrest⟩)
    · exact .inr (.inr ⟨hadmits, hrest⟩)
  · rintro (h | ⟨hload, hrest⟩ | ⟨hadmits, hrest⟩)
    · exact .here h
    · exact .load hload hrest
    · exact .next hadmits hrest

theorem not_partsDisplay_nil : ¬ grammar.PartsDisplay query place [] text := nofun

mutual

/-- Nothing is shown behind the active place. -/
theorem Displays.place_le {place : Nat} {id : RuleId} {text : String} :
    grammar.Displays query place id text → place ≤ query.active
  | .word _ _ _ => le_rfl
  | .choice _ _ hbranch => hbranch.place_le
  | .wrapper _ htarget => htarget.place_le
  | .sequence _ hparts => hparts.place_le

theorem PartsDisplay.place_le {place : Nat} {children : List RuleId} {text : String} :
    grammar.PartsDisplay query place children text → place ≤ query.active
  | .here hchild => hchild.place_le
  | .load _ hrest => hrest.place_le
  | .next _ hrest => (Nat.le_succ place).trans hrest.place_le

end

/-- Loads alone show nothing. -/
theorem not_partsDisplay_of_isLoad {children : List RuleId}
    (h : ∀ child ∈ children, grammar.isLoad child = true) :
    ¬ grammar.PartsDisplay query place children text := by
  induction children generalizing place with
  | nil => exact not_partsDisplay_nil
  | cons child children ih =>
      have hload := h child (List.mem_cons_self ..)
      have hrest := fun other hother => h other (List.mem_cons_of_mem child hother)
      rw [partsDisplay_cons]
      rintro (hdisplays | ⟨-, hdisplays⟩ | ⟨hadmits, -⟩)
      · exact not_displays_of_isLoad hload hdisplays
      · exact ih hrest hdisplays
      · exact not_admits_of_isLoad hload hadmits

end Grammar

/-! ### Flat languages -/

namespace Language

/-- The rule loads a type from inside the current one. -/
def LoadsInside (language : Language) (id : RuleId) : Prop :=
  ∃ load, language.grammar.kind? id = some (.typeLoad load) ∧ load.operation = .load ∧
    load.nested = true ∧ load.ordinal = none

theorem LoadsInside.isLoad {language : Language} {id : RuleId} (h : language.LoadsInside id) :
    language.grammar.isLoad id = true := by
  obtain ⟨load, hkind, -⟩ := h
  simp [Grammar.isLoad, hkind]

/-- The types that may be current behind a load, if those in `scopes` may be current before
it.  Where the load has not been looked at yet, the type from before it is still current. -/
def scopesBehind (language : Language) (scopes : Set (Option TypeId)) (id : RuleId) :
    Set (Option TypeId) :=
  scopes ∪ { type | ∃ load current, language.grammar.kind? id = some (.typeLoad load) ∧
    some current ∈ scopes ∧ language.types.findNested? current load.path = type }

theorem scopesBehind_subset {language : Language} {scopes scopes' : Set (Option TypeId)}
    (h : scopes' ⊆ scopes) (id : RuleId) :
    language.scopesBehind scopes' id ⊆ language.scopesBehind scopes id := by
  rintro type (htype | ⟨load, current, hkind, hcurrent, hfound⟩)
  · exact .inl (h htype)
  · exact .inr ⟨load, current, hkind, h hcurrent, hfound⟩

/-- The children of a flat sequence, with the types that may be current: single words and loads that
find a current type, then any child that is not a load, and after it loads only. -/
inductive FlatChildren (language : Language) (known : RuleId → Set (Option TypeId)) :
    Set (Option TypeId) → List RuleId → Prop
  | last {scopes : Set (Option TypeId)} {child : RuleId} {rest : List RuleId} :
      language.grammar.isLoad child = false → scopes ⊆ known child →
      (∀ other ∈ rest, language.grammar.isLoad other = true) →
        FlatChildren language known scopes (child :: rest)
  | word {scopes : Set (Option TypeId)} {child : RuleId} {rest : List RuleId} :
      language.grammar.OneWord child → FlatChildren language known scopes rest →
        FlatChildren language known scopes (child :: rest)
  | load {scopes : Set (Option TypeId)} {child : RuleId} {rest : List RuleId} :
      language.LoadsInside child → none ∉ scopes →
      FlatChildren language known (language.scopesBehind scopes child) rest →
        FlatChildren language known scopes (child :: rest)

/-- All sequences are flat, no load takes its type from a free word, and there are neither blocks,
nor commands of types, nor free words that refer to anything.  The types that may be current at a
rule are among those `known` there. -/
structure Flat (language : Language) (known : RuleId → Set (Option TypeId)) : Prop where
  simple : ∀ id kind, language.grammar.kind? id = some kind → kind.isSimple = true
  untagged : ∀ id children singleToken isError,
    language.grammar.kind? id = some (.sequence children singleToken isError) →
      ∀ index child, children[index]? = some child →
        language.grammar.Untagged (some ⟨id, index⟩) child
  choice : ∀ id branches, language.grammar.kind? id = some (.choice branches) →
    ∀ branch ∈ branches, known id ⊆ known branch
  wrapper : ∀ id wrapping target,
    language.grammar.kind? id = some (.wrapper wrapping (some target)) → known id ⊆ known target
  flat : ∀ id children singleToken isError,
    language.grammar.kind? id = some (.sequence children singleToken isError) →
      language.FlatChildren known (known id) children

end Language

/-! ### What an outline shows -/

namespace Outline

section Displays

variable (grammar : Grammar) (query : Query)

/-- The node loads a type, or is put off until it does. -/
def IsLoad : Outline → Prop
  | .scope _ _ => True
  | .deferred _ part => part.reference = none ∧ ∃ id, part.rule = some id ∧ grammar.isLoad id = true
  | _ => False

mutual

/-- A single word of the node may stand at the place. -/
def Admits (place : Nat) : Outline → Prop
  | .word _ w => query.Allows place w
  | .deferred _ part => ∃ id, part.rule = some id ∧ grammar.Admits query place id
  | .choice _ branches => SomeAdmits place branches
  | .blank _ | .sequence _ _ _ | .scope _ _ => False

/-- The same for one of several branches. -/
def SomeAdmits (place : Nat) : List Outline → Prop
  | [] => False
  | branch :: branches => Admits place branch ∨ SomeAdmits place branches

end

mutual

/-- The node, put at a place, has a word with the given text at the active place, and the words
before it may stand at theirs. -/
def Displays : Nat → Outline → String → Prop
  | place, .word _ w, text => place = query.active ∧ query.Allows place w ∧ w.isBlock = false ∧
      w.text.isEmpty = false ∧ text = w.rendered
  | place, .deferred _ part, text =>
      ∃ id, part.rule = some id ∧ grammar.Displays query place id text
  | place, .choice _ branches, text => SomeDisplays place branches text
  | place, .sequence _ _ parts, text => PartsDisplay place parts text
  | _, .blank _, _ | _, .scope _ _, _ => False

/-- The same for parts one after another. -/
def PartsDisplay : Nat → List Outline → String → Prop
  | _, [], _ => False
  | place, part :: parts, text => Displays place part text ∨
      (part.IsLoad grammar ∧ PartsDisplay place parts text) ∨
      (part.Admits grammar query place ∧ PartsDisplay (place + 1) parts text)

/-- The same for one of several branches. -/
def SomeDisplays : Nat → List Outline → String → Prop
  | _, [], _ => False
  | place, branch :: branches, text => Displays place branch text ∨ SomeDisplays place branches text

end

end Displays

variable {grammar : Grammar} {query : Query} {place : Nat} {text : String}

theorem someAdmits_iff {branches : List Outline} :
    SomeAdmits grammar query place branches ↔
      ∃ branch ∈ branches, branch.Admits grammar query place := by
  induction branches with
  | nil => simp [SomeAdmits]
  | cons branch branches ih => simp [SomeAdmits, ih]

theorem someDisplays_iff {branches : List Outline} :
    SomeDisplays grammar query place branches text ↔
      ∃ branch ∈ branches, branch.Displays grammar query place text := by
  induction branches with
  | nil => simp [SomeDisplays]
  | cons branch branches ih => simp [SomeDisplays, ih]

theorem IsLoad.not_admits {node : Outline} (h : node.IsLoad grammar) :
    ¬ node.Admits grammar query place := by
  cases node with
  | deferred mark part =>
      obtain ⟨-, id, hid, hload⟩ := h
      rintro ⟨id', hid', hadmits⟩
      rw [hid] at hid'
      cases hid'
      exact Grammar.not_admits_of_isLoad hload hadmits
  | scope mark type => exact id
  | blank | word | sequence | choice => exact h.elim

theorem IsLoad.not_displays {node : Outline} (h : node.IsLoad grammar) :
    ¬ node.Displays grammar query place text := by
  cases node with
  | deferred mark part =>
      obtain ⟨-, id, hid, hload⟩ := h
      rintro ⟨id', hid', hdisplays⟩
      rw [hid] at hid'
      cases hid'
      exact Grammar.not_displays_of_isLoad hload hdisplays
  | scope mark type => exact id
  | blank | word | sequence | choice => exact h.elim

/-- Loads alone show nothing. -/
theorem not_partsDisplay_of_isLoad {parts : List Outline}
    (h : ∀ part ∈ parts, part.IsLoad grammar) :
    ¬ PartsDisplay grammar query place parts text := by
  induction parts generalizing place with
  | nil => exact id
  | cons part parts ih =>
      have hload := h part (List.mem_cons_self ..)
      have hrest := fun other hother => h other (List.mem_cons_of_mem part hother)
      rintro (hdisplays | ⟨-, hdisplays⟩ | ⟨hadmits, -⟩)
      · exact hload.not_displays hdisplays
      · exact ih hrest hdisplays
      · exact hload.not_admits hadmits

/-! ### Flat outlines -/

mutual

/-- The node is a single word, a choice of such, or a rule for a single word that is put off. -/
def OneWord (grammar : Grammar) : Outline → Prop
  | .word mark _ => mark.complete = true → mark.wordCount = 1
  | .deferred mark part => mark.complete = false ∧ part.reference = none ∧
      ∃ id, part.rule = some id ∧ grammar.OneWord id ∧ grammar.Untagged mark.slot id
  | .choice mark branches => (mark.complete = true → mark.wordCount = 1) ∧ branches ≠ [] ∧
      AllOneWord grammar branches
  | .blank _ | .sequence _ _ _ | .scope _ _ => False

/-- All branches are single words, and none is put off. -/
def AllOneWord (grammar : Grammar) : List Outline → Prop
  | [] => True
  | branch :: branches =>
      (branch.isDeferred = false ∧ OneWord grammar branch) ∧ AllOneWord grammar branches

end

theorem allOneWord_iff {branches : List Outline} :
    AllOneWord grammar branches ↔
      ∀ branch ∈ branches, branch.isDeferred = false ∧ branch.OneWord grammar := by
  induction branches with
  | nil => simp [AllOneWord]
  | cons branch branches ih => simp [AllOneWord, ih]

theorem OneWord.not_isLoad {node : Outline} (h : node.OneWord grammar) : ¬ node.IsLoad grammar := by
  cases node with
  | word | choice => exact id
  | deferred mark part =>
      obtain ⟨-, -, id, hid, hword, -⟩ := h
      rintro ⟨-, id', hid', hload⟩
      rw [hid] at hid'
      cases hid'
      rw [hword.isLoad_eq_false] at hload
      cases hload
  | blank | sequence | scope => exact h.elim

/-- The node has loaded its type, or is put off until it does and finds a current type then. -/
def Loads (language : Language) (scopes : Set (Option TypeId)) : Outline → Prop
  | .scope mark _ => mark.complete = true ∧ mark.wordCount = 0
  | .deferred mark part => mark.complete = false ∧ part.reference = none ∧
      (∃ id, part.rule = some id ∧ language.LoadsInside id) ∧ none ∉ scopes
  | _ => False

/-- The types that may be current behind a node, if those in `scopes` may be current before it. -/
def scopesBehind (language : Language) (scopes : Set (Option TypeId)) :
    Outline → Set (Option TypeId)
  | .scope _ type => {type}
  | .deferred _ part => part.rule.elim scopes (language.scopesBehind scopes)
  | _ => scopes

section Flat

variable (language : Language) (query : Query) (known : RuleId → Set (Option TypeId)) (limit : Nat)
  (done : Prop)

mutual

/-- The node is what a flat rule at a place is unfolded into, where `scopes` may be current: what
stands at or after the limit is put off.  If all is `done`, then before the limit only rules are put
off that show nothing. -/
def Flat (scopes : Set (Option TypeId)) : Nat → Outline → Prop
  | _, .blank _ | _, .word _ _ | _, .scope _ _ => True
  | place, .deferred mark part => mark.complete = false ∧ part.reference = none ∧
      (∀ id, part.rule = some id → language.grammar.Untagged mark.slot id ∧ scopes ⊆ known id) ∧
      (done → limit ≤ place ∨ ∀ place text,
        ¬ (Outline.deferred mark part).Displays language.grammar query place text)
  | place, .choice _ branches => AllFlat scopes place branches
  | place, .sequence _ _ parts => PartsFlat scopes place parts

/-- The parts of a flat sequence: single words and loads that find a current type, then any part,
and after it loads only. -/
def PartsFlat (scopes : Set (Option TypeId)) : Nat → List Outline → Prop
  | _, [] => False
  | place, part :: parts =>
      (Flat scopes place part ∧ (limit ≤ place → part.isDeferred = true) ∧
        ∀ other ∈ parts, other.IsLoad language.grammar) ∨
      (part.OneWord language.grammar ∧ (limit ≤ place → part.isDeferred = true) ∧
        (done → part.isDeferred = true → limit ≤ place) ∧ PartsFlat scopes (place + 1) parts) ∨
      (part.Loads language scopes ∧ (done → part.isDeferred = true → limit ≤ place) ∧
        PartsFlat (part.scopesBehind language scopes) place parts)

/-- All branches are flat. -/
def AllFlat (scopes : Set (Option TypeId)) : Nat → List Outline → Prop
  | _, [] => True
  | place, branch :: branches => Flat scopes place branch ∧ AllFlat scopes place branches

end

end Flat

variable {language : Language} {known : RuleId → Set (Option TypeId)} {limit : Nat} {done : Prop}
  {scopes : Set (Option TypeId)}

theorem allFlat_iff {branches : List Outline} :
    AllFlat language query known limit done scopes place branches ↔
      ∀ branch ∈ branches, branch.Flat language query known limit done scopes place := by
  induction branches with
  | nil => simp [AllFlat]
  | cons branch branches ih => simp [AllFlat, ih]

theorem scopesBehind_subset {scopes' : Set (Option TypeId)} (h : scopes' ⊆ scopes)
    (node : Outline) :
    node.scopesBehind language scopes' ⊆ node.scopesBehind language scopes := by
  cases node with
  | deferred mark part =>
      rw [scopesBehind, scopesBehind]
      cases part.rule with
      | none => exact h
      | some id => exact Language.scopesBehind_subset h id
  | scope => exact subset_rfl
  | blank | word | sequence | choice => exact h

theorem Loads.subset {scopes' : Set (Option TypeId)} {node : Outline}
    (h : node.Loads language scopes) (hscopes : scopes' ⊆ scopes) :
    node.Loads language scopes' := by
  cases node with
  | scope mark type => exact h
  | deferred mark part =>
      obtain ⟨hmark, href, hrule, hnone⟩ := h
      exact ⟨hmark, href, hrule, fun hmem => hnone (hscopes hmem)⟩
  | blank | word | sequence | choice => exact h.elim

/-- An outline stays flat where fewer types may be current.  What is done does not matter where
nothing is put off. -/
theorem Flat.imp {scopes' : Set (Option TypeId)} {done' : Prop} {outline : Outline}
    (h : outline.Flat language query known limit done scopes place) (hscopes : scopes' ⊆ scopes)
    (hdone : done' → done ∨ outline.isExpanded = true) :
    outline.Flat language query known limit done' scopes' place := by
  induction outline generalizing place scopes scopes' with
  | blank | word | scope => trivial
  | deferred mark part =>
      obtain ⟨hmark, href, hrule, hsilent⟩ := h
      refine ⟨hmark, href, ?_, ?_⟩
      · intro id hid
        obtain ⟨htag, hknown⟩ := hrule id hid
        exact ⟨htag, hscopes.trans hknown⟩
      · intro hdone'
        rcases hdone hdone' with hdone | hexpanded
        · exact hsilent hdone
        · cases hexpanded
  | choice mark branches ih =>
      apply allFlat_iff.2
      intro branch hbranch
      refine ih branch hbranch (allFlat_iff.1 h branch hbranch) hscopes ?_
      intro hdone'
      exact (hdone hdone').imp_right fun hexpanded => allExpanded_iff.1 hexpanded branch hbranch
  | sequence mark info parts ih =>
      have hparts : PartsFlat language query known limit done scopes place parts := h
      have hexpanded : done' → done ∨ ∀ part ∈ parts, part.isExpanded = true :=
        fun hdone' => (hdone hdone').imp_right allExpanded_iff.1
      clear h hdone
      show PartsFlat language query known limit done' scopes' place parts
      induction parts generalizing place scopes scopes' with
      | nil => exact hparts
      | cons part parts ihparts =>
          have hhead : done' → done ∨ part.isExpanded = true :=
            fun hdone' => (hexpanded hdone').imp_right fun hall => hall part (List.mem_cons_self ..)
          have htail : done' → done ∨ ∀ other ∈ parts, other.isExpanded = true :=
            fun hdone' => (hexpanded hdone').imp_right
              fun hall other hother => hall other (List.mem_cons_of_mem _ hother)
          have hplaced : (done → part.isDeferred = true → limit ≤ place) →
              done' → part.isDeferred = true → limit ≤ place := by
            intro hbefore hdone' hdeferred
            rcases hhead hdone' with hdone | hpart
            · exact hbefore hdone hdeferred
            · cases part with
              | deferred => cases hpart
              | blank | word | sequence | choice | scope => cases hdeferred
          have ihtail := @ihparts fun other hother => @ih other (List.mem_cons_of_mem _ hother)
          rcases hparts with ⟨hpart, hlimit, hloads⟩ | ⟨hword, hlimit, hbefore, hrest⟩ |
            ⟨hload, hbefore, hrest⟩
          · exact .inl ⟨ih part (List.mem_cons_self ..) hpart hscopes hhead, hlimit, hloads⟩
          · exact .inr (.inl ⟨hword, hlimit, hplaced hbefore, ihtail hscopes hrest htail⟩)
          · exact .inr (.inr ⟨hload.subset hscopes, hplaced hbefore,
              ihtail (scopesBehind_subset hscopes part) hrest htail⟩)

theorem PartsFlat.imp {scopes' : Set (Option TypeId)} {done' : Prop} {parts : List Outline}
    (h : PartsFlat language query known limit done scopes place parts) (hscopes : scopes' ⊆ scopes)
    (hdone : done' → done) : PartsFlat language query known limit done' scopes' place parts := by
  have hsequence :
      (Outline.sequence {} {} parts).Flat language query known limit done scopes place := h
  exact hsequence.imp hscopes fun hdone' => .inl (hdone hdone')

theorem Loads.isLoad {node : Outline} (h : node.Loads language scopes) :
    node.IsLoad language.grammar := by
  cases node with
  | scope mark type => trivial
  | deferred mark part =>
      obtain ⟨-, href, ⟨id, hid, hload⟩, -⟩ := h
      exact ⟨href, id, hid, hload.isLoad⟩
  | blank | word | sequence | choice => exact h.elim

end Outline

/-! ### Unfolding -/

namespace Language

open Outline

variable {language : Language} {query : Query} {known : RuleId → Set (Option TypeId)} {limit : Nat}
  {scopes : Set (Option TypeId)}

/-- The node shows the same as the rule, and is flat at every place before the limit. -/
structure Opened (language : Language) (query : Query) (known : RuleId → Set (Option TypeId))
    (limit : Nat) (scopes : Set (Option TypeId)) (id : RuleId) (node : Outline) : Prop where
  flat : ∀ place < limit, node.Flat language query known limit False scopes place
  displays : ∀ place text, node.Displays language.grammar query place text ↔
    language.grammar.Displays query place id text

/-- The node is a single word that is not put off, and shows and admits the same as the rule. -/
structure OpenedWord (language : Language) (query : Query) (id : RuleId) (node : Outline) :
    Prop where
  oneWord : node.OneWord language.grammar
  notDeferred : node.isDeferred = false
  admits : ∀ place, node.Admits language.grammar query place ↔
    language.grammar.Admits query place id
  displays : ∀ place text, node.Displays language.grammar query place text ↔
    language.grammar.Displays query place id text

theorem untagged_none {grammar : Grammar} (id : RuleId) : grammar.Untagged none id :=
  fun _ _ _ _ => rfl

theorem untagged_target {grammar : Grammar} {slot : Option Slot} {id target : RuleId}
    {wrapping : Wrapping} (hkind : grammar.kind? id = some (.wrapper wrapping (some target)))
    (h : grammar.Untagged slot id) : grammar.Untagged slot target :=
  fun last free hlast hfree => h last free (.wrapper hkind hlast) hfree

section Flat

variable (h : language.Flat known)
include h

/-- A rule for a word puts the word into the node. -/
theorem unfoldWithin_word {id : RuleId} {w : Word} (hword : language.grammar.word? id = some w)
    {fuel : Nat} {scope : Option TypeId} {openBlock : Bool} {node : Outline}
    (href : node.reference? = none) (htag : language.grammar.Untagged node.mark.slot id)
    {unfolded : Unfolded}
    (hunfolded : language.unfoldWithin fuel scope openBlock (some id) node = some unfolded) :
    unfolded = ⟨node.fill w, true⟩ := by
  cases fuel with
  | zero => cases hunfolded
  | succ fuel =>
      rw [Grammar.word?] at hword
      split at hword
      · next leaf hkind =>
          simp only [unfoldWithin, hkind] at hunfolded
          cases hword
          cases hunfolded
          rfl
      · next free hkind =>
          have hsimple := h.simple id _ hkind
          simp only [RuleKind.isSimple, RuleKind.isSingleWord, Bool.and_eq_true,
            Bool.not_eq_true'] at hsimple
          obtain ⟨⟨htype, hname⟩, -⟩ := hsimple
          simp only [unfoldWithin, hkind,
            fillFree_eq_fill (htag id free (.refl id) hkind) href htype hname] at hunfolded
          cases hword
          cases hunfolded
          simp [settled, fill, isDeferred]
      · cases hword

/-- A rule for a single word is unfolded into a single word. -/
theorem unfoldWithin_oneWord {id : RuleId} (hid : language.grammar.OneWord id) {fuel : Nat}
    {scope : Option TypeId} {openBlock : Bool} {node : Outline} (hmark : node.mark.complete = false)
    (href : node.reference? = none) (htag : language.grammar.Untagged node.mark.slot id)
    {unfolded : Unfolded}
    (hunfolded : language.unfoldWithin fuel scope openBlock (some id) node = some unfolded) :
    unfolded.grew = true ∧ language.OpenedWord query id unfolded.node := by
  induction hid generalizing fuel openBlock node unfolded with
  | @word id w hword =>
      obtain rfl := unfoldWithin_word h hword href htag hunfolded
      refine ⟨rfl, fun _ => rfl, rfl, ?_, ?_⟩
      · intro place
        rw [Grammar.admits_word hword]
        rfl
      · intro place text
        rw [Grammar.displays_word hword]
        simp [Outline.Displays, fill, Grammar.word?_isBlock hword]
  | @choice id branches hkind hne _ ih =>
      cases fuel with
      | zero => cases hunfolded
      | succ fuel =>
          simp only [unfoldWithin, hkind] at hunfolded
          obtain ⟨nodes, hnodes, rfl⟩ := Option.map_eq_some_iff.1 hunfolded
          have hall : List.Forall₂ (language.OpenedWord query) branches
              (nodes.map Unfolded.node) := by
            refine List.forall₂_map_right_iff.2 (forall₂_imp_of_mem (mapM_eq_some_iff.1 hnodes) ?_)
            intro branch hbranch unfolded hunfolded
            exact (ih branch hbranch rfl rfl (untagged_none branch) hunfolded).2
          refine ⟨rfl, ⟨?_, ?_, ?_⟩, rfl, ?_, ?_⟩
          · intro hcomplete
            rw [hmark] at hcomplete
            cases hcomplete
          · rintro hnil
            rw [hnil] at hall
            exact hne (List.forall₂_nil_right_iff.1 hall)
          · apply allOneWord_iff.2
            intro node' hnode'
            obtain ⟨branch, -, hopened⟩ := exists_left_of_forall₂ hall node' hnode'
            exact ⟨hopened.notDeferred, hopened.oneWord⟩
          · intro place
            rw [Grammar.admits_choice hkind]
            exact someAdmits_iff.trans (exists_mem_congr_of_forall₂ (hall.imp
              fun branch node' hopened => (hopened.admits place).symm)).symm
          · intro place text
            rw [Grammar.displays_choice hkind]
            exact someDisplays_iff.trans (exists_mem_congr_of_forall₂ (hall.imp
              fun branch node' hopened => (hopened.displays place text).symm)).symm
  | @wrapper id target wrapping hkind _ ih =>
      cases fuel with
      | zero => cases hunfolded
      | succ fuel =>
          simp only [unfoldWithin, hkind] at hunfolded
          obtain ⟨hgrew, hopened⟩ := ih hmark href (untagged_target hkind htag) hunfolded
          refine ⟨hgrew, hopened.oneWord, hopened.notDeferred, ?_, ?_⟩
          · intro place
            rw [Grammar.admits_wrapper hkind]
            exact hopened.admits place
          · intro place text
            rw [Grammar.displays_wrapper hkind]
            exact hopened.displays place text

omit h in
/-- A load that finds a current type brings one into play. -/
theorem unfoldWithin_load {id : RuleId} (hid : language.LoadsInside id) {fuel : Nat}
    {scope : Option TypeId} (hscope : scope ∈ scopes) (hnone : none ∉ scopes) {openBlock : Bool}
    {node : Outline} {unfolded : Unfolded}
    (hunfolded : language.unfoldWithin fuel scope openBlock (some id) node = some unfolded) :
    ∃ type ∈ language.scopesBehind scopes id,
      unfolded = ⟨.scope (node.mark.settle 0) type, true⟩ := by
  obtain ⟨load, hkind, hoperation, hnested, hordinal⟩ := hid
  cases scope with
  | none => exact absurd hscope hnone
  | some current =>
      cases fuel with
      | zero => cases hunfolded
      | succ fuel =>
          simp only [unfoldWithin, hkind, hoperation, hnested, hordinal] at hunfolded
          cases hunfolded
          exact ⟨_, .inr ⟨load, current, hkind, hscope, rfl⟩, rfl⟩

omit h in
/-- The later parts of a sequence show the same as their rules. -/
theorem partsDisplay_deferred {children : List RuleId} {place : Nat} {text : String} (id : RuleId)
    (index : Nat) :
    PartsDisplay language.grammar query place ((children.zipIdx index).map fun entry =>
        Outline.ofRule entry.1 (some ⟨id, entry.2⟩)) text ↔
      language.grammar.PartsDisplay query place children text := by
  induction children generalizing place index with
  | nil => exact ⟨False.elim, Grammar.not_partsDisplay_nil⟩
  | cons child children ih =>
      rw [List.zipIdx_cons, List.map_cons, PartsDisplay, Grammar.partsDisplay_cons, ih, ih]
      simp [ofRule, Outline.Displays, IsLoad, Outline.Admits]

omit h in
/-- The later parts of a flat sequence are flat, wherever they stand. -/
theorem partsFlat_deferred {children : List RuleId}
    (hflat : language.FlatChildren known scopes children) (id : RuleId) {index : Nat}
    (htag : ∀ i child, children[i]? = some child →
      language.grammar.Untagged (some ⟨id, index + i⟩) child) (place : Nat) :
    PartsFlat language query known limit False scopes place
      ((children.zipIdx index).map fun entry =>
        Outline.ofRule entry.1 (some ⟨id, entry.2⟩)) := by
  induction hflat generalizing index place with
  | @last scopes child rest hchild hscopes hrest =>
      refine .inl ⟨⟨rfl, rfl, ?_, False.elim⟩, fun _ => rfl, ?_⟩
      · rintro _ ⟨⟩
        exact ⟨htag 0 child rfl, hscopes⟩
      · intro other hother
        obtain ⟨entry, hentry, rfl⟩ := List.mem_map.1 hother
        exact ⟨rfl, entry.1, rfl, hrest entry.1 (List.fst_mem_of_mem_zipIdx hentry)⟩
  | @word scopes child rest hchild _ ih =>
      refine .inr
        (.inl ⟨⟨rfl, rfl, child, rfl, hchild, htag 0 child rfl⟩, fun _ => rfl, False.elim, ?_⟩)
      refine ih ?_ (place + 1)
      intro i other hother
      rw [Nat.add_assoc, Nat.add_comm 1 i]
      exact htag (i + 1) other hother
  | @load scopes child rest hchild hnone _ ih =>
      refine .inr (.inr ⟨⟨rfl, rfl, ⟨child, rfl, hchild⟩, hnone⟩, False.elim, ?_⟩)
      refine ih ?_ place
      intro i other hother
      rw [Nat.add_assoc, Nat.add_comm 1 i]
      exact htag (i + 1) other hother

omit h in
/-- The parts of a flat sequence are flat and show the same as their rules, once the first of them
is unfolded. -/
theorem parts_opened {first : RuleId} {rest : List RuleId}
    (hflat : language.FlatChildren known scopes (first :: rest)) (id : RuleId)
    (htag : ∀ i child, (first :: rest)[i]? = some child →
      language.grammar.Untagged (some ⟨id, i⟩) child) {head : Outline}
    (hlast : scopes ⊆ known first → language.Opened query known limit scopes first head)
    (hword : language.grammar.OneWord first → language.OpenedWord query first head)
    (hload : language.LoadsInside first → none ∉ scopes →
      ∃ type ∈ language.scopesBehind scopes first,
        ∃ mark, head = .scope mark type ∧ mark.complete = true ∧ mark.wordCount = 0) :
    (∀ place < limit,
      PartsFlat language query known limit False scopes place (head :: deferRest id rest)) ∧
    ∀ place text, PartsDisplay language.grammar query place (head :: deferRest id rest) text ↔
      language.grammar.PartsDisplay query place (first :: rest) text := by
  have hlater : ∀ i child, rest[i]? = some child →
      language.grammar.Untagged (some ⟨id, 1 + i⟩) child := by
    intro i child hchild
    rw [Nat.add_comm]
    exact htag (i + 1) child hchild
  have hdisplays : ∀ place text,
      PartsDisplay language.grammar query place (head :: deferRest id rest) text ↔
        head.Displays language.grammar query place text ∨
          (head.IsLoad language.grammar ∧ language.grammar.PartsDisplay query place rest text) ∨
          (head.Admits language.grammar query place ∧
            language.grammar.PartsDisplay query (place + 1) rest text) := by
    intro place text
    rw [PartsDisplay, deferRest, partsDisplay_deferred, partsDisplay_deferred]
  cases hflat with
  | last _ hscopes hrest =>
      have hhead := hlast hscopes
      refine ⟨?_, ?_⟩
      · intro place hplace
        refine .inl ⟨hhead.flat place hplace, fun hle => absurd hplace (by omega), ?_⟩
        intro other hother
        obtain ⟨entry, hentry, rfl⟩ := List.mem_map.1 hother
        exact ⟨rfl, entry.1, rfl, hrest entry.1 (List.fst_mem_of_mem_zipIdx hentry)⟩
      · intro place text
        rw [hdisplays, Grammar.partsDisplay_cons]
        simp [Grammar.not_partsDisplay_of_isLoad hrest, hhead.displays]
  | word hfirst hrest =>
      have hhead := hword hfirst
      refine ⟨?_, ?_⟩
      · intro place hplace
        exact .inr (.inl ⟨hhead.oneWord, fun hle => absurd hplace (by omega), False.elim,
          partsFlat_deferred hrest id hlater (place + 1)⟩)
      · intro place text
        rw [hdisplays, Grammar.partsDisplay_cons]
        simp [hhead.oneWord.not_isLoad, hfirst.isLoad_eq_false, hhead.admits, hhead.displays]
  | load hfirst hnone hrest =>
      obtain ⟨type, htype, mark, rfl, hmark, hcount⟩ := hload hfirst hnone
      refine ⟨?_, ?_⟩
      · intro place hplace
        have hparts := @partsFlat_deferred language query known limit _ rest hrest id 1 hlater place
        exact .inr (.inr ⟨⟨hmark, hcount⟩, False.elim,
          hparts.imp (Set.singleton_subset_iff.2 htype) False.elim⟩)
      · intro place text
        rw [hdisplays, Grammar.partsDisplay_cons]
        have hisLoad := hfirst.isLoad
        simp [Outline.IsLoad, Outline.Admits, Outline.Displays, hisLoad,
          Grammar.not_admits_of_isLoad hisLoad, Grammar.not_displays_of_isLoad hisLoad]

/-- What unfolding a rule into a node comes to: the node is left alone and the rule shows nothing,
or the node now shows the same as the rule. -/
def Unrolls (language : Language) (query : Query) (known : RuleId → Set (Option TypeId))
    (limit : Nat) (scopes : Set (Option TypeId)) (id : RuleId) (node : Outline)
    (unfolded : Unfolded) : Prop :=
  (unfolded.node = node ∧ (unfolded.grew = true → node.isDeferred = false) ∧
      ∀ place text, ¬ language.grammar.Displays query place id text) ∨
    (unfolded.grew = true ∧ language.Opened query known limit scopes id unfolded.node)

omit h in
theorem Unrolls.opened {id : RuleId} {slot : Option Slot} {unfolded : Unfolded}
    (hunrolls : language.Unrolls query known limit scopes id (.blank { slot }) unfolded) :
    language.Opened query known limit scopes id unfolded.node := by
  rcases hunrolls with ⟨hsame, -, hsilent⟩ | ⟨-, hopened⟩
  · rw [hsame]
    refine ⟨fun _ _ => trivial, ?_⟩
    intro place text
    exact ⟨False.elim, hsilent place text⟩
  · exact hopened

/-- A rule is unfolded into an outline that shows the same. -/
theorem unfoldWithin_opened {fuel : Nat} {scope : Option TypeId} (hscope : scope ∈ scopes)
    {openBlock : Bool} {id : RuleId} (hscopes : scopes ⊆ known id) {node : Outline}
    (hmark : node.mark.complete = false)
    (href : node.reference? = none) (htag : language.grammar.Untagged node.mark.slot id)
    {unfolded : Unfolded}
    (hunfolded : language.unfoldWithin fuel scope openBlock (some id) node = some unfolded) :
    language.Unrolls query known limit scopes id node unfolded := by
  induction fuel generalizing scopes openBlock id node unfolded with
  | zero => cases hunfolded
  | succ fuel ih =>
      have hsilent : unfolded = settled node false ∨ unfolded = ⟨node, false⟩ →
          (∀ kind, language.grammar.kind? id = some kind → kind.isSilent = true) →
          language.Unrolls query known limit scopes id node unfolded := by
        intro hsame hkind
        have hdisplays : ∀ place text, ¬ language.grammar.Displays query place id text :=
          fun _ _ => Grammar.not_displays_of_isSilent hkind
        rcases hsame with rfl | rfl
        · exact .inl ⟨rfl, by simp [settled], hdisplays⟩
        · exact .inl ⟨rfl, by simp, hdisplays⟩
      have hword : ∀ w, language.grammar.word? id = some w →
          language.Unrolls query known limit scopes id node unfolded := by
        intro w hword
        obtain rfl := unfoldWithin_word h hword href htag hunfolded
        refine .inr ⟨rfl, fun _ _ => trivial, ?_⟩
        intro place text
        rw [Grammar.displays_word hword]
        simp [Outline.Displays, fill, Grammar.word?_isBlock hword]
      cases hkind : language.grammar.kind? id with
      | none =>
          simp only [unfoldWithin, hkind] at hunfolded
          cases hunfolded
          exact hsilent (.inr rfl) (by simp [hkind])
      | some kind =>
          have hsimple := h.simple id kind hkind
          cases kind with
          | leaf leaf => exact hword _ (Grammar.word?_leaf hkind)
          | freeWord free => exact hword _ (Grammar.word?_free hkind)
          | block | typeCommand => cases hsimple
          | unknown label =>
              simp only [unfoldWithin, hkind] at hunfolded
              cases hunfolded
              exact hsilent (.inl rfl) (by simp [hkind, RuleKind.isSilent])
          | typeLoad load =>
              simp only [unfoldWithin, hkind] at hunfolded
              split at hunfolded
              · split at hunfolded
                · cases hunfolded
                  refine .inr ⟨rfl, fun _ _ => trivial, ?_⟩
                  intro place text
                  exact ⟨False.elim, Grammar.not_displays_of_isLoad
                    (by simp [Grammar.isLoad, hkind])⟩
                · cases hunfolded
                  exact hsilent (.inl rfl) (by simp [hkind, RuleKind.isSilent])
              · cases hunfolded
                exact hsilent (.inl rfl) (by simp [hkind, RuleKind.isSilent])
          | wrapper wrapping target =>
              simp only [unfoldWithin, hkind] at hunfolded
              cases target with
              | none =>
                  cases fuel with
                  | zero => cases hunfolded
                  | succ fuel =>
                      cases hunfolded
                      exact hsilent (.inr rfl) (by simp [hkind, RuleKind.isSilent])
              | some target =>
                  have hdisplays := fun place text =>
                    @Grammar.displays_wrapper language.grammar query id place text target wrapping
                      hkind
                  have htarget := hscopes.trans (h.wrapper id wrapping target hkind)
                  rcases ih hscope htarget hmark href (untagged_target hkind htag) hunfolded with
                    ⟨hsame, hgrew, hnot⟩ | ⟨hgrew, hopened⟩
                  · exact .inl
                      ⟨hsame, hgrew, fun place text => by rw [hdisplays]; exact hnot place text⟩
                  · exact .inr ⟨hgrew, hopened.flat, fun place text => by
                      rw [hdisplays]; exact hopened.displays place text⟩
          | choice branches =>
              simp only [unfoldWithin, hkind] at hunfolded
              obtain ⟨nodes, hnodes, rfl⟩ := Option.map_eq_some_iff.1 hunfolded
              have hall : List.Forall₂ (language.Opened query known limit scopes) branches
                  (nodes.map Unfolded.node) := by
                refine List.forall₂_map_right_iff.2
                  (forall₂_imp_of_mem (mapM_eq_some_iff.1 hnodes) ?_)
                intro branch hbranch unfolded hunfolded
                exact (ih hscope (hscopes.trans (h.choice id branches hkind branch hbranch)) rfl rfl
                  (untagged_none branch) hunfolded).opened
              refine .inr ⟨rfl, ?_, ?_⟩
              · intro place hplace
                apply allFlat_iff.2
                intro node' hnode'
                obtain ⟨branch, -, hopened⟩ := exists_left_of_forall₂ hall node' hnode'
                exact hopened.flat place hplace
              · intro place text
                rw [Grammar.displays_choice hkind]
                exact someDisplays_iff.trans (exists_mem_congr_of_forall₂ (hall.imp
                  fun branch node' hopened => (hopened.displays place text).symm)).symm
          | sequence children singleToken isError =>
              simp only [unfoldWithin, hkind] at hunfolded
              have htags := h.untagged id children singleToken isError hkind
              have hflat := h.flat id children singleToken isError hkind
              split at hunfolded
              · next herror =>
                  cases hunfolded
                  exact hsilent (.inl rfl) (by simp [hkind, RuleKind.isSilent, herror])
              · next herror =>
                  rw [Bool.not_eq_true] at herror
                  subst herror
                  split at hunfolded
                  · cases hflat
                  · next first rest =>
                      obtain ⟨head, hhead, rfl⟩ := Option.map_eq_some_iff.1 hunfolded
                      have htag : language.grammar.Untagged
                          (Outline.blank { slot := some ⟨id, 0⟩ }).mark.slot first :=
                        htags 0 first rfl
                      obtain ⟨hparts, hdisplays⟩ := parts_opened hflat id htags
                        (fun hfirst => (ih (hscopes hscope) hfirst rfl rfl htag hhead).opened)
                        (fun hone => (unfoldWithin_oneWord h hone rfl rfl htag hhead).2) (by
                          intro hload hnone
                          obtain ⟨type, htype, rfl⟩ :=
                            unfoldWithin_load hload (hscopes hscope) hnone hhead
                          exact ⟨type, htype, _, rfl, rfl, rfl⟩)
                      refine .inr ⟨rfl, ?_, ?_⟩
                      · intro place hplace
                        exact (hparts place hplace).imp hscopes False.elim
                      · intro place text
                        rw [Grammar.displays_sequence hkind]
                        exact hdisplays place text

end Flat

end Language

end Typeahead
