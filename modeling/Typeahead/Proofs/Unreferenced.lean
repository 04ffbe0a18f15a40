/-
Grammars whose free words refer to names.

A word that the user is free to choose may refer to a type or to a known name.  For the commands of
a language that makes no difference: such a word shows as its placeholder either way.  So every
grammar has a twin in which free words keep their placeholders but refer to nothing, and the twin has
the same commands.

A grammar is *referential* when it is position-determined but for such references.  Everything that is
known about position-determined grammars then applies to its twin.

Main definitions:

* `Typeahead.Grammar.unreferenced` — the twin without references;
* `Typeahead.Grammar.Referential` — the grammars described above.

Main results:

* `Typeahead.Grammar.derives_unreferenced` — the twin derives the same word lists;
* `Typeahead.Grammar.referential_iff` — a grammar is referential exactly if its twin is
  position-determined.
-/

import Typeahead.Proofs.Yield

set_option relaxedAutoImplicit false
set_option autoImplicit false

namespace Typeahead

/-- The free word with the same placeholder that refers to nothing. -/
def FreeWord.unreferenced (free : FreeWord) : FreeWord :=
  { kind := if free.namesType then free.kind ++ "-name" else free.kind }

theorem FreeWord.placeholder_unreferenced (free : FreeWord) :
    free.unreferenced.placeholder = free.placeholder := by
  have hname : (free.kind ++ "-name").isEmpty = false := by
    simp
  cases hnames : free.namesType with
  | true => simp [unreferenced, placeholder, hnames, hname]
  | false => simp [unreferenced, placeholder, hnames]

/-- The rule without references; only a free word has any. -/
def RuleKind.unreferenced : RuleKind → RuleKind
  | .freeWord free => .freeWord free.unreferenced
  | kind => kind

namespace RuleKind

theorem references_unreferenced (kind : RuleKind) :
    kind.unreferenced.references = kind.references := by
  cases kind <;> rfl

/-- A rule other than a free word is the same in the twin. -/
theorem unreferenced_eq_iff {kind kind' : RuleKind} (hfree : ∀ free, kind' ≠ .freeWord free) :
    kind.unreferenced = kind' ↔ kind = kind' := by
  cases kind with
  | freeWord free =>
      constructor
      · intro h
        exact absurd h.symm (hfree _)
      · intro h
        exact absurd h.symm (hfree _)
  | _ => rfl

end RuleKind

namespace Grammar

/-- The grammar with the same words in which nothing refers to a type or a known name. -/
def unreferenced (grammar : Grammar) : Grammar :=
  { grammar with
    rules := grammar.rules.map fun rule => { rule with kind := rule.kind.unreferenced } }

variable {grammar : Grammar} {root id : RuleId}

/-! ### Look-up in the twin -/

theorem kind?_unreferenced (id : RuleId) :
    grammar.unreferenced.kind? id = (grammar.kind? id).map RuleKind.unreferenced := by
  simp only [kind?, unreferenced, Array.getElem?_map, Option.map_map]
  rfl

theorem kind?_unreferenced_iff {kind : RuleKind} (hfree : ∀ free, kind ≠ .freeWord free) :
    grammar.unreferenced.kind? id = some kind ↔ grammar.kind? id = some kind := by
  rw [kind?_unreferenced, Option.map_eq_some_iff]
  constructor
  · rintro ⟨kind', hkind, hsame⟩
    rwa [(RuleKind.unreferenced_eq_iff hfree).1 hsame] at hkind
  · intro hkind
    exact ⟨kind, hkind, (RuleKind.unreferenced_eq_iff hfree).2 rfl⟩

theorem displayName_unreferenced (id : RuleId) :
    grammar.unreferenced.displayName id = grammar.displayName id := by
  simp only [displayName, unreferenced, Array.getElem?_map]
  cases grammar.rules[id.index]? <;> rfl

theorem size_unreferenced : grammar.unreferenced.rules.size = grammar.rules.size := by
  simp [unreferenced]

theorem refers_unreferenced : grammar.unreferenced.Refers = grammar.Refers := by
  funext source target
  simp only [Refers, kind?_unreferenced, Option.map_eq_some_iff, eq_iff_iff]
  constructor
  · rintro ⟨_, ⟨kind, hkind, rfl⟩, hmem⟩
    exact ⟨kind, hkind, kind.references_unreferenced ▸ hmem⟩
  · rintro ⟨kind, hkind, hmem⟩
    exact ⟨_, ⟨kind, hkind, rfl⟩, kind.references_unreferenced.symm ▸ hmem⟩

theorem reaches_unreferenced : grammar.unreferenced.Reaches = grammar.Reaches := by
  unfold Reaches
  rw [refers_unreferenced]

/-! ### Commands of the twin -/

mutual

theorem Derives.unreferenced {id : RuleId} {words : List Word} :
    grammar.Derives id words → grammar.unreferenced.Derives id words
  | .leaf h => by
      rw [← displayName_unreferenced id]
      exact .leaf ((kind?_unreferenced_iff (by simp)).2 h)
  | @Derives.free _ _ free h => by
      rw [← free.placeholder_unreferenced]
      exact .free (by rw [kind?_unreferenced, h]; rfl)
  | .sequence h hall =>
      .sequence ((kind?_unreferenced_iff (by simp)).2 h) hall.unreferenced
  | .choice h hmem hbranch =>
      .choice ((kind?_unreferenced_iff (by simp)).2 h) hmem hbranch.unreferenced
  | .wrapper h htarget =>
      .wrapper ((kind?_unreferenced_iff (by simp)).2 h) htarget.unreferenced

theorem DerivesAll.unreferenced {children : List RuleId} {words : List Word} :
    grammar.DerivesAll children words → grammar.unreferenced.DerivesAll children words
  | .nil => .nil
  | .cons hfirst hrest => .cons hfirst.unreferenced hrest.unreferenced

end

mutual

theorem Derives.of_unreferenced {id : RuleId} {words : List Word} :
    grammar.unreferenced.Derives id words → grammar.Derives id words
  | .leaf h => by
      rw [displayName_unreferenced id]
      exact .leaf ((kind?_unreferenced_iff (by simp)).1 h)
  | .free h => by
      rw [kind?_unreferenced] at h
      obtain ⟨kind, hkind, hfree⟩ := Option.map_eq_some_iff.1 h
      cases kind with
      | freeWord free =>
          cases hfree
          rw [free.placeholder_unreferenced]
          exact .free hkind
      | _ => cases hfree
  | .sequence h hall =>
      .sequence ((kind?_unreferenced_iff (by simp)).1 h) hall.of_unreferenced
  | .choice h hmem hbranch =>
      .choice ((kind?_unreferenced_iff (by simp)).1 h) hmem hbranch.of_unreferenced
  | .wrapper h htarget =>
      .wrapper ((kind?_unreferenced_iff (by simp)).1 h) htarget.of_unreferenced

theorem DerivesAll.of_unreferenced {children : List RuleId} {words : List Word} :
    grammar.unreferenced.DerivesAll children words → grammar.DerivesAll children words
  | .nil => .nil
  | .cons hfirst hrest => .cons hfirst.of_unreferenced hrest.of_unreferenced

end

/-- Forgetting references changes no command. -/
theorem derives_unreferenced {words : List Word} :
    grammar.unreferenced.Derives id words ↔ grammar.Derives id words :=
  ⟨Derives.of_unreferenced, Derives.unreferenced⟩

theorem hasLength_unreferenced {n : Nat} :
    grammar.unreferenced.HasLength id n ↔ grammar.HasLength id n := by
  simp only [HasLength, derives_unreferenced]

/-! ### Referential grammars -/

/-- The rules reached from `root` are plain but for references of free words, none of them reaches
itself, and every part of a sequence but the last derives word lists of one length only. -/
structure Referential (grammar : Grammar) (root : RuleId) : Prop where
  plain : ∀ id, grammar.Reaches root id →
    ∃ kind, grammar.kind? id = some kind ∧ kind.unreferenced.isPlain
  acyclic : ∀ id, grammar.Reaches root id → ¬ Relation.TransGen grammar.Refers id id
  fixed : ∀ id children singleToken isError, grammar.Reaches root id →
    grammar.kind? id = some (.sequence children singleToken isError) →
    ∀ child ∈ children.dropLast, ∃ n, grammar.HasLength child n

theorem referential_iff :
    grammar.Referential root ↔ grammar.unreferenced.PositionDetermined root := by
  constructor
  · intro hg
    refine ⟨?_, ?_, ?_⟩
    · intro id hid
      rw [reaches_unreferenced] at hid
      obtain ⟨kind, hkind, hplain⟩ := hg.plain id hid
      exact ⟨kind.unreferenced, by rw [kind?_unreferenced, hkind]; rfl, hplain⟩
    · intro id hid
      rw [reaches_unreferenced] at hid
      rw [refers_unreferenced]
      exact hg.acyclic id hid
    · intro id children singleToken isError hid hkind child hchild
      rw [reaches_unreferenced] at hid
      obtain ⟨n, hn⟩ := hg.fixed id children singleToken isError hid
        ((kind?_unreferenced_iff (by simp)).1 hkind) child hchild
      exact ⟨n, hasLength_unreferenced.2 hn⟩
  · intro hg
    refine ⟨?_, ?_, ?_⟩
    · intro id hid
      rw [← reaches_unreferenced] at hid
      obtain ⟨kind', hkind', hplain⟩ := hg.plain id hid
      rw [kind?_unreferenced] at hkind'
      obtain ⟨kind, hkind, rfl⟩ := Option.map_eq_some_iff.1 hkind'
      exact ⟨kind, hkind, hplain⟩
    · intro id hid
      rw [← reaches_unreferenced] at hid
      rw [← refers_unreferenced]
      exact hg.acyclic id hid
    · intro id children singleToken isError hid hkind child hchild
      rw [← reaches_unreferenced] at hid
      obtain ⟨n, hn⟩ := hg.fixed id children singleToken isError hid
        ((kind?_unreferenced_iff (by simp)).2 hkind) child hchild
      exact ⟨n, hasLength_unreferenced.1 hn⟩

/-! ### Slots of the twin -/

theorem endKeyword?_unreferenced (id : RuleId) :
    grammar.unreferenced.endKeyword? id = grammar.endKeyword? id := by
  simp only [endKeyword?, kind?_unreferenced]
  cases grammar.kind? id with
  | none => rfl
  | some kind => cases kind <;> rfl

theorem followingLoad?_unreferenced (slot : Slot) :
    grammar.unreferenced.followingLoad? slot = grammar.followingLoad? slot := by
  unfold followingLoad?
  rw [kind?_unreferenced]
  cases grammar.kind? slot.sequence with
  | none => rfl
  | some kind =>
      cases kind with
      | sequence children singleToken isError =>
          refine congrArg (List.findSome? · (children.drop (slot.index + 1))) ?_
          funext sibling
          rw [kind?_unreferenced]
          cases grammar.kind? sibling with
          | none => rfl
          | some kind => cases kind <;> rfl
      | _ => rfl

theorem closing?_unreferenced (slot : Option Slot) :
    grammar.unreferenced.closing? slot = grammar.closing? slot := by
  cases slot with
  | none => rfl
  | some slot =>
      simp only [closing?, endKeyword?_unreferenced, kind?_unreferenced]
      cases slot.index with
      | succ index => rfl
      | zero =>
          cases grammar.kind? slot.sequence with
          | none => rfl
          | some kind => cases kind <;> rfl

theorem plainSlot_unreferenced (slot : Option Slot) :
    grammar.unreferenced.PlainSlot slot ↔ grammar.PlainSlot slot := by
  have hload : grammar.unreferenced.loadFrom? = grammar.loadFrom? := by
    funext slot
    rw [loadFrom?, loadFrom?, followingLoad?_unreferenced]
  rw [PlainSlot, PlainSlot, closing?_unreferenced, hload]

end Grammar

end Typeahead
