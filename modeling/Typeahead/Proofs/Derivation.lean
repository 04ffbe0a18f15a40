/-
The language of a grammar.

A rule derives lists of words: a leaf its one word, a sequence the concatenations of what its
parts derive, a choice what any of its branches derives, and a wrapper what its target derives.
Nothing here mentions outlines; this is what the outlines of the other modules are compared with.

A grammar is *position-determined* when its rules are plain, when no rule reaches itself, and when
every part of a sequence but the last derives word lists of one length only.  The place of every
part of a command is then fixed by the grammar alone.

Main definitions:

* `Typeahead.Grammar.Derives` — the word lists of a rule;
* `Typeahead.Grammar.Refers`, `Typeahead.Grammar.Reaches` — the reference graph;
* `Typeahead.RuleKind.isPlain` — the kinds of rules that stand for words only;
* `Typeahead.Grammar.PositionDetermined` — the grammars described above.

Main results:

* `Typeahead.Grammar.PositionDetermined.induction` — induction along references;
* `Typeahead.Grammar.PositionDetermined.exists_derives` — every rule derives some word list;
* `Typeahead.Grammar.PositionDetermined.rank_lt_rank`,
  `Typeahead.Grammar.PositionDetermined.rank_lt_size` — references decrease a rank that is smaller
  than the number of rules.
-/

import Mathlib.Algebra.GroupWithZero.Nat
import Mathlib.Data.Finset.Card
import Mathlib.Data.Finset.Range
import Mathlib.Logic.Relation
import Typeahead.Outline.Unfold

set_option relaxedAutoImplicit false
set_option autoImplicit false

namespace Typeahead

/-! ### Plain rules -/

/-- The kinds of rules that stand for words and nothing else: fixed words that are not empty,
placeholders, and non-empty combinations of other rules. -/
def RuleKind.isPlain : RuleKind → Bool
  | .leaf (.literal text) => !text.isEmpty
  | .leaf _ => true
  | .freeWord free => !free.refersToType && !free.isKnownName && !free.namesType
  | .sequence children _ isError => !children.isEmpty && !isError
  | .choice branches => !branches.isEmpty
  | .wrapper _ target => target.isSome
  | _ => false

namespace Grammar

/-! ### Derivations -/

mutual

/-- The word lists that a rule derives. -/
inductive Derives (grammar : Grammar) : RuleId → List Word → Prop
  | leaf {id : RuleId} {leaf : Leaf} : grammar.kind? id = some (.leaf leaf) →
      Derives grammar id [leaf.word (grammar.displayName id)]
  | free {id : RuleId} {free : FreeWord} : grammar.kind? id = some (.freeWord free) →
      Derives grammar id [.pattern free.placeholder]
  | sequence {id : RuleId} {children : List RuleId} {singleToken : Bool} {words : List Word} :
      grammar.kind? id = some (.sequence children singleToken false) →
      DerivesAll grammar children words → Derives grammar id words
  | choice {id branch : RuleId} {branches : List RuleId} {words : List Word} :
      grammar.kind? id = some (.choice branches) → branch ∈ branches →
      Derives grammar branch words → Derives grammar id words
  | wrapper {id target : RuleId} {wrapping : Wrapping} {words : List Word} :
      grammar.kind? id = some (.wrapper wrapping (some target)) →
      Derives grammar target words → Derives grammar id words

/-- The concatenations of what a list of rules derives. -/
inductive DerivesAll (grammar : Grammar) : List RuleId → List Word → Prop
  | nil : DerivesAll grammar [] []
  | cons {child : RuleId} {children : List RuleId} {first rest : List Word} :
      Derives grammar child first → DerivesAll grammar children rest →
      DerivesAll grammar (child :: children) (first ++ rest)

end

variable {grammar : Grammar} {id root : RuleId}

@[simp] theorem derivesAll_nil {words : List Word} :
    grammar.DerivesAll [] words ↔ words = [] := by
  constructor
  · rintro ⟨⟩
    rfl
  · rintro rfl
    exact .nil

theorem derivesAll_cons {child : RuleId} {children : List RuleId} {words : List Word} :
    grammar.DerivesAll (child :: children) words ↔
      ∃ first rest, words = first ++ rest ∧ grammar.Derives child first ∧
        grammar.DerivesAll children rest := by
  constructor
  · rintro (_ | ⟨hfirst, hrest⟩)
    exact ⟨_, _, rfl, hfirst, hrest⟩
  · rintro ⟨first, rest, rfl, hfirst, hrest⟩
    exact .cons hfirst hrest

theorem DerivesAll.append {before after : List RuleId} {first rest : List Word}
    (hfirst : grammar.DerivesAll before first) (hrest : grammar.DerivesAll after rest) :
    grammar.DerivesAll (before ++ after) (first ++ rest) := by
  induction before generalizing first with
  | nil =>
      obtain rfl := derivesAll_nil.1 hfirst
      exact hrest
  | cons child before ih =>
      obtain ⟨head, tail, rfl, hhead, htail⟩ := derivesAll_cons.1 hfirst
      rw [List.append_assoc]
      exact .cons hhead (ih htail)

theorem exists_derivesAll {children : List RuleId}
    (h : ∀ child ∈ children, ∃ words, grammar.Derives child words) :
    ∃ words, grammar.DerivesAll children words := by
  induction children with
  | nil => exact ⟨[], .nil⟩
  | cons child children ih =>
      obtain ⟨first, hfirst⟩ := h child (List.mem_cons_self ..)
      obtain ⟨rest, hrest⟩ := ih fun other hother => h other (List.mem_cons_of_mem _ hother)
      exact ⟨first ++ rest, .cons hfirst hrest⟩

/-! What a rule derives, one lemma for each plain kind. -/

theorem derives_leaf {leaf : Leaf} (h : grammar.kind? id = some (.leaf leaf)) {words : List Word} :
    grammar.Derives id words ↔ words = [leaf.word (grammar.displayName id)] := by
  constructor
  · rintro (h' | h' | h' | h' | h') <;> rw [h] at h' <;> cases h'
    rfl
  · rintro rfl
    exact .leaf h

theorem derives_free {free : FreeWord} (h : grammar.kind? id = some (.freeWord free))
    {words : List Word} : grammar.Derives id words ↔ words = [.pattern free.placeholder] := by
  constructor
  · rintro (h' | h' | h' | h' | h') <;> rw [h] at h' <;> cases h'
    rfl
  · rintro rfl
    exact .free h

theorem derives_sequence {children : List RuleId} {singleToken : Bool}
    (h : grammar.kind? id = some (.sequence children singleToken false)) {words : List Word} :
    grammar.Derives id words ↔ grammar.DerivesAll children words := by
  constructor
  · rintro (h' | h' | h' | h' | h') <;> rw [h] at h' <;> cases h'
    assumption
  · exact .sequence h

theorem derives_choice {branches : List RuleId} (h : grammar.kind? id = some (.choice branches))
    {words : List Word} :
    grammar.Derives id words ↔ ∃ branch ∈ branches, grammar.Derives branch words := by
  constructor
  · rintro (h' | h' | h' | h' | h') <;> rw [h] at h' <;> cases h'
    exact ⟨_, ‹_›, ‹_›⟩
  · rintro ⟨branch, hmem, hbranch⟩
    exact .choice h hmem hbranch

theorem derives_wrapper {target : RuleId} {wrapping : Wrapping}
    (h : grammar.kind? id = some (.wrapper wrapping (some target))) {words : List Word} :
    grammar.Derives id words ↔ grammar.Derives target words := by
  constructor
  · rintro (h' | h' | h' | h' | h') <;> rw [h] at h' <;> cases h'
    assumption
  · exact .wrapper h

/-! ### The reference graph -/

/-- Rule `source` refers to rule `target`. -/
def Refers (grammar : Grammar) (source target : RuleId) : Prop :=
  ∃ kind, grammar.kind? source = some kind ∧ target ∈ kind.references

/-- Rule `target` is `source`, or is reached from it along references. -/
def Reaches (grammar : Grammar) : RuleId → RuleId → Prop :=
  Relation.ReflTransGen grammar.Refers

theorem refers_of_kind {kind : RuleKind} (h : grammar.kind? id = some kind) {target : RuleId}
    (ht : target ∈ kind.references) : grammar.Refers id target := ⟨kind, h, ht⟩

theorem Reaches.refers {source target : RuleId} (h : grammar.Reaches root source)
    (href : grammar.Refers source target) : grammar.Reaches root target :=
  Relation.ReflTransGen.tail h href

/-- All word lists of a rule have `n` words. -/
def HasLength (grammar : Grammar) (id : RuleId) (n : Nat) : Prop :=
  ∀ words, grammar.Derives id words → words.length = n

open Classical in
/-- The number of words of a rule, where there is only one. -/
noncomputable def ruleLength (grammar : Grammar) (id : RuleId) : Nat :=
  if h : ∃ n, grammar.HasLength id n then h.choose else 0

theorem HasLength.hasLength_ruleLength {n : Nat} (h : grammar.HasLength id n) :
    grammar.HasLength id (grammar.ruleLength id) := by
  have hex : ∃ n, grammar.HasLength id n := ⟨n, h⟩
  rw [ruleLength, dif_pos hex]
  exact hex.choose_spec

/-- The rules reached from `root` are plain, none of them reaches itself, and every part of a
sequence but the last derives word lists of one length only. -/
structure PositionDetermined (grammar : Grammar) (root : RuleId) : Prop where
  plain : ∀ id, grammar.Reaches root id → ∃ kind, grammar.kind? id = some kind ∧ kind.isPlain
  acyclic : ∀ id, grammar.Reaches root id → ¬ Relation.TransGen grammar.Refers id id
  fixed : ∀ id children singleToken isError, grammar.Reaches root id →
    grammar.kind? id = some (.sequence children singleToken isError) →
    ∀ child ∈ children.dropLast, ∃ n, grammar.HasLength child n

/-! ### Ranks -/

open Classical in
/-- The places of the rules that a rule reaches in at least one step. -/
noncomputable def placesBelow (grammar : Grammar) (id : RuleId) : Finset Nat :=
  (Finset.range grammar.rules.size).filter fun index =>
    Relation.TransGen grammar.Refers id ⟨index⟩

theorem mem_placesBelow {index : Nat} :
    index ∈ grammar.placesBelow id ↔
      index < grammar.rules.size ∧ Relation.TransGen grammar.Refers id ⟨index⟩ := by
  simp only [placesBelow, Finset.mem_filter, Finset.mem_range]

/-- The number of rules that a rule reaches in at least one step. -/
noncomputable def rank (grammar : Grammar) (id : RuleId) : Nat := (grammar.placesBelow id).card

theorem index_lt_of_kind {kind : RuleKind} (h : grammar.kind? id = some kind) :
    id.index < grammar.rules.size := by
  obtain ⟨rule, hrule, -⟩ := Option.map_eq_some_iff.1 h
  obtain ⟨hlt, -⟩ := Array.getElem?_eq_some_iff.1 hrule
  exact hlt

namespace PositionDetermined

variable (hg : grammar.PositionDetermined root)
include hg

theorem index_lt (hid : grammar.Reaches root id) : id.index < grammar.rules.size := by
  obtain ⟨kind, hkind, -⟩ := hg.plain id hid
  exact index_lt_of_kind hkind

/-- What a rule reaches is reached by the rules that refer to it, and those reach the rule itself
on top of that. -/
theorem rank_lt_rank {target : RuleId} (hid : grammar.Reaches root id)
    (href : grammar.Refers id target) : grammar.rank target < grammar.rank id := by
  have htarget : grammar.Reaches root target := hid.refers href
  have hsub : grammar.placesBelow target ⊆ grammar.placesBelow id := by
    intro index hindex
    rw [mem_placesBelow] at hindex ⊢
    exact ⟨hindex.1, hindex.2.head href⟩
  have hmem : target.index ∈ grammar.placesBelow id :=
    mem_placesBelow.2 ⟨hg.index_lt htarget, .single href⟩
  -- the target itself is what makes the difference: it does not reach itself
  have hnot : target.index ∉ grammar.placesBelow target := by
    rw [mem_placesBelow]
    intro h
    exact hg.acyclic target htarget h.2
  exact Finset.card_lt_card ((Finset.ssubset_iff_of_subset hsub).2 ⟨_, hmem, hnot⟩)

theorem rank_lt_size (hid : grammar.Reaches root id) : grammar.rank id < grammar.rules.size := by
  have hsub : grammar.placesBelow id ⊆ Finset.range grammar.rules.size := by
    intro index hindex
    exact Finset.mem_range.2 (mem_placesBelow.1 hindex).1
  have hnot : id.index ∉ grammar.placesBelow id := by
    rw [mem_placesBelow]
    intro h
    exact hg.acyclic id hid h.2
  have hlt := Finset.card_lt_card ((Finset.ssubset_iff_of_subset hsub).2
    ⟨id.index, Finset.mem_range.2 (hg.index_lt hid), hnot⟩)
  rwa [Finset.card_range] at hlt

/-- Induction along references, over the rules that are reached. -/
theorem induction {motive : RuleId → Prop}
    (step : ∀ id, grammar.Reaches root id →
      (∀ target, grammar.Refers id target → motive target) → motive id) :
    ∀ id, grammar.Reaches root id → motive id := by
  intro id
  induction hrank : grammar.rank id using Nat.strong_induction_on generalizing id with
  | _ rank ih =>
      intro hid
      refine step id hid ?_
      intro target href
      exact ih _ (hrank ▸ hg.rank_lt_rank hid href) target rfl (hid.refers href)

/-! ### Derivations exist and are not empty -/

/-- Every rule derives some word list. -/
theorem exists_derives (hid : grammar.Reaches root id) : ∃ words, grammar.Derives id words := by
  refine hg.induction (motive := fun id => ∃ words, grammar.Derives id words) ?_ id hid
  intro id hid ih
  obtain ⟨kind, hkind, hplain⟩ := hg.plain id hid
  cases kind with
  | leaf leaf => exact ⟨_, .leaf hkind⟩
  | freeWord free => exact ⟨_, .free hkind⟩
  | sequence children singleToken isError =>
      simp only [RuleKind.isPlain, Bool.and_eq_true, Bool.not_eq_true'] at hplain
      obtain ⟨-, rfl⟩ := hplain
      obtain ⟨words, hwords⟩ := exists_derivesAll fun child hchild =>
        ih child (refers_of_kind hkind hchild)
      exact ⟨words, .sequence hkind hwords⟩
  | choice branches =>
      cases branches with
      | nil => simp [RuleKind.isPlain] at hplain
      | cons branch branches =>
          have hmem : branch ∈ branch :: branches := List.mem_cons_self ..
          obtain ⟨words, hwords⟩ := ih branch (refers_of_kind hkind hmem)
          exact ⟨words, .choice hkind hmem hwords⟩
  | wrapper wrapping target =>
      cases target with
      | none => simp [RuleKind.isPlain] at hplain
      | some target =>
          obtain ⟨words, hwords⟩ := ih target
            (refers_of_kind hkind (by simp [RuleKind.references]))
          exact ⟨words, .wrapper hkind hwords⟩
  | block => simp [RuleKind.isPlain] at hplain
  | typeLoad => simp [RuleKind.isPlain] at hplain
  | typeCommand => simp [RuleKind.isPlain] at hplain
  | unknown => simp [RuleKind.isPlain] at hplain

/-- No rule derives the empty word list. -/
theorem ne_nil_of_derives (hid : grammar.Reaches root id) :
    ∀ words, grammar.Derives id words → words ≠ [] := by
  refine hg.induction (motive := fun id => ∀ words, grammar.Derives id words → words ≠ [])
    ?_ id hid
  intro id hid ih words hwords
  obtain ⟨kind, hkind, hplain⟩ := hg.plain id hid
  cases hwords with
  | leaf => simp
  | free => simp
  | @sequence _ children _ _ hseq hall =>
      -- the first part alone has a word
      rw [hseq] at hkind
      cases hkind
      cases hall with
      | nil => simp [RuleKind.isPlain] at hplain
      | @cons child children first rest hfirst hrest =>
          have hne := ih child (refers_of_kind hseq (by simp [RuleKind.references])) first hfirst
          simp [hne]
  | choice hchoice hmem hbranch => exact ih _ (refers_of_kind hchoice hmem) words hbranch
  | wrapper hwrapper htarget =>
      exact ih _ (refers_of_kind hwrapper (by simp [RuleKind.references])) words htarget

/-! ### Lengths -/

theorem ruleLength_eq {n : Nat} (hid : grammar.Reaches root id) (h : grammar.HasLength id n) :
    grammar.ruleLength id = n := by
  obtain ⟨words, hwords⟩ := hg.exists_derives hid
  rw [← h words hwords, h.hasLength_ruleLength words hwords]

/-- If a sequence has one length then so has each of its parts: the words of one part can be
exchanged with those of the others kept. -/
theorem hasLength_of_mem {n : Nat} {children : List RuleId} {singleToken : Bool}
    (hid : grammar.Reaches root id)
    (hkind : grammar.kind? id = some (.sequence children singleToken false))
    (hn : grammar.HasLength id n) {child : RuleId} (hchild : child ∈ children) :
    grammar.HasLength child (grammar.ruleLength child) := by
  have hex : ∀ other ∈ children, ∃ words, grammar.Derives other words := fun other hother =>
    hg.exists_derives (hid.refers (refers_of_kind hkind hother))
  -- fix the words of all other parts; what is left for this one is then determined
  obtain ⟨before, after, rfl⟩ := List.append_of_mem hchild
  obtain ⟨front, hfront⟩ := exists_derivesAll fun other hother =>
    hex other (List.mem_append_left _ hother)
  obtain ⟨back, hback⟩ := exists_derivesAll fun other hother =>
    hex other (List.mem_append_right _ (List.mem_cons_of_mem _ hother))
  have hlength : grammar.HasLength child (n - front.length - back.length) := by
    intro words hwords
    have hall := hn _ (.sequence hkind (hfront.append (.cons hwords hback)))
    simp only [List.length_append] at hall
    omega
  exact hlength.hasLength_ruleLength

end PositionDetermined

/-! ### Parse choices -/

/-- The number of ways to read a rule, followed at most `depth` references deep: one for a leaf, the
product over the parts of a sequence, the sum over the branches of a choice. -/
def choicesWithin (grammar : Grammar) : Nat → RuleId → Nat
  | 0, _ => 0
  | depth + 1, id =>
      match grammar.kind? id with
      | some (.leaf _) | some (.freeWord _) => 1
      | some (.sequence children _ _) => (children.map (grammar.choicesWithin depth)).prod
      | some (.choice branches) => (branches.map (grammar.choicesWithin depth)).sum
      | some (.wrapper _ (some target)) => grammar.choicesWithin depth target
      | _ => 0

/-- The number of ways to read a rule.  No chain of references is longer than the number of
rules. -/
def parseChoices (grammar : Grammar) (id : RuleId) : Nat :=
  grammar.choicesWithin grammar.rules.size id

namespace PositionDetermined

variable (hg : grammar.PositionDetermined root)
include hg

/-- The depth does not matter once it exceeds the rank. -/
theorem choicesWithin_eq {depth depth' : Nat} (hid : grammar.Reaches root id)
    (hdepth : grammar.rank id < depth) (hdepth' : grammar.rank id < depth') :
    grammar.choicesWithin depth id = grammar.choicesWithin depth' id := by
  induction depth generalizing id depth' with
  | zero => omega
  | succ depth ih =>
      obtain ⟨depth', rfl⟩ : ∃ k, depth' = k + 1 := ⟨depth' - 1, by omega⟩
      have hnext : ∀ target, grammar.Refers id target →
          grammar.choicesWithin depth target = grammar.choicesWithin depth' target := by
        intro target href
        have hlt := hg.rank_lt_rank hid href
        exact ih (hid.refers href) (by omega) (by omega)
      obtain ⟨kind, hkind, -⟩ := hg.plain id hid
      simp only [choicesWithin, hkind]
      cases kind with
      | sequence children singleToken isError =>
          exact congrArg List.prod (List.map_congr_left fun target htarget =>
            hnext target (refers_of_kind hkind htarget))
      | choice branches =>
          exact congrArg List.sum (List.map_congr_left fun target htarget =>
            hnext target (refers_of_kind hkind htarget))
      | wrapper wrapping target =>
          cases target with
          | none => rfl
          | some target => exact hnext target (refers_of_kind hkind (by simp [RuleKind.references]))
      | _ => rfl

/-- One step down, the depth that `parseChoices` starts with is still enough. -/
theorem choicesWithin_of_refers {target : RuleId} (hid : grammar.Reaches root id)
    (href : grammar.Refers id target) :
    grammar.choicesWithin (grammar.rules.size - 1) target = grammar.parseChoices target := by
  have hlt := hg.rank_lt_rank hid href
  have hsize := hg.rank_lt_size hid
  exact hg.choicesWithin_eq (hid.refers href) (by omega) (by omega)

theorem parseChoices_unfold (hid : grammar.Reaches root id) :
    grammar.parseChoices id = grammar.choicesWithin (grammar.rules.size - 1 + 1) id := by
  have hsize := hg.rank_lt_size hid
  exact hg.choicesWithin_eq hid hsize (by omega)

theorem parseChoices_sequence {children : List RuleId} {singleToken isError : Bool}
    (hid : grammar.Reaches root id)
    (hkind : grammar.kind? id = some (.sequence children singleToken isError)) :
    grammar.parseChoices id = (children.map grammar.parseChoices).prod := by
  rw [hg.parseChoices_unfold hid]
  simp only [choicesWithin, hkind]
  exact congrArg List.prod (List.map_congr_left fun target htarget =>
    hg.choicesWithin_of_refers hid (refers_of_kind hkind htarget))

theorem parseChoices_choice {branches : List RuleId} (hid : grammar.Reaches root id)
    (hkind : grammar.kind? id = some (.choice branches)) :
    grammar.parseChoices id = (branches.map grammar.parseChoices).sum := by
  rw [hg.parseChoices_unfold hid]
  simp only [choicesWithin, hkind]
  exact congrArg List.sum (List.map_congr_left fun target htarget =>
    hg.choicesWithin_of_refers hid (refers_of_kind hkind htarget))

theorem parseChoices_wrapper {target : RuleId} {wrapping : Wrapping}
    (hid : grammar.Reaches root id)
    (hkind : grammar.kind? id = some (.wrapper wrapping (some target))) :
    grammar.parseChoices id = grammar.parseChoices target := by
  rw [hg.parseChoices_unfold hid]
  simp only [choicesWithin, hkind]
  exact hg.choicesWithin_of_refers hid (refers_of_kind hkind (by simp [RuleKind.references]))

theorem parseChoices_leaf {leaf : Leaf} (hid : grammar.Reaches root id)
    (hkind : grammar.kind? id = some (.leaf leaf)) : grammar.parseChoices id = 1 := by
  rw [hg.parseChoices_unfold hid]
  simp only [choicesWithin, hkind]

theorem parseChoices_free {free : FreeWord} (hid : grammar.Reaches root id)
    (hkind : grammar.kind? id = some (.freeWord free)) : grammar.parseChoices id = 1 := by
  rw [hg.parseChoices_unfold hid]
  simp only [choicesWithin, hkind]

end PositionDetermined

end Grammar

end Typeahead
