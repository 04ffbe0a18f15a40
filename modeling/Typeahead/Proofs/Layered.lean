/-
A test for position-determined grammars.

A grammar is layered when every rule is plain and refers to earlier rules of the table only, and
when the lengths of the parts before the last of every sequence can be computed.  Such a grammar is
position-determined from every rule.  The test does not recognise all of them, since the order of
the table says nothing about cycles, but it can be evaluated on any grammar at hand.

Main definitions:

* `Typeahead.Grammar.fixedLength?` — the length of a rule, if it can be computed;
* `Typeahead.Grammar.isLayered` — the test.

Main results:

* `Typeahead.Grammar.hasLength_of_fixedLength?` — a computed length is right;
* `Typeahead.Grammar.positionDetermined_of_isLayered` — the test is sound.
-/

import Typeahead.Proofs.Steps

set_option relaxedAutoImplicit false
set_option autoImplicit false

namespace Typeahead

/-- The length of a rule, computed from the lengths of the rules it refers to. -/
def RuleKind.fixedLength? (length? : RuleId → Option Nat) : RuleKind → Option Nat
  | .leaf _ | .freeWord _ => some 1
  | .sequence children _ _ => (children.mapM length?).map List.sum
  | .choice (branch :: branches) =>
      (length? branch).filter fun n => branches.all fun other => length? other == some n
  | .wrapper _ (some target) => length? target
  | _ => none

/-- The parts of a rule that have to be of one length: those before the last of a sequence. -/
def RuleKind.inner : RuleKind → List RuleId
  | .sequence children _ _ => children.dropLast
  | _ => []

namespace Grammar

variable {grammar : Grammar} {root : RuleId}

/-- The length of a rule, followed at most `depth` references deep. -/
def fixedLength? (grammar : Grammar) : Nat → RuleId → Option Nat
  | 0, _ => none
  | depth + 1, id => (grammar.kind? id).bind (RuleKind.fixedLength? (fixedLength? grammar depth))

theorem length_of_derivesAll {length? : RuleId → Option Nat} {children : List RuleId}
    {lengths : List Nat} {words : List Word}
    (h : ∀ child ∈ children, ∀ n, length? child = some n → grammar.HasLength child n)
    (hlengths : List.Forall₂ (fun child n => length? child = some n) children lengths)
    (hwords : grammar.DerivesAll children words) : words.length = lengths.sum := by
  induction hlengths generalizing words with
  | nil => simp [derivesAll_nil.1 hwords]
  | @cons child n children lengths hn _ ih =>
      obtain ⟨first, rest, rfl, hfirst, hrest⟩ := derivesAll_cons.1 hwords
      have hhead := h child (List.mem_cons_self ..) n hn first hfirst
      have htail := ih (fun other hother => h other (List.mem_cons_of_mem _ hother)) hrest
      rw [List.length_append, hhead, htail, List.sum_cons]

/-- A computed length is right. -/
theorem hasLength_of_fixedLength? {depth n : Nat} {id : RuleId}
    (h : grammar.fixedLength? depth id = some n) : grammar.HasLength id n := by
  induction depth generalizing id n with
  | zero => simp [fixedLength?] at h
  | succ depth ih =>
      obtain ⟨kind, hkind, hlength⟩ := Option.bind_eq_some_iff.1 h
      intro words hwords
      cases hwords with
      | leaf hleaf =>
          rw [hleaf] at hkind
          cases hkind
          simpa [RuleKind.fixedLength?] using hlength
      | free hfree =>
          rw [hfree] at hkind
          cases hkind
          simpa [RuleKind.fixedLength?] using hlength
      | sequence hseq hall =>
          rw [hseq] at hkind
          cases hkind
          obtain ⟨lengths, hlengths, rfl⟩ := Option.map_eq_some_iff.1 hlength
          exact length_of_derivesAll (fun child _ m hm => ih hm) (mapM_eq_some_iff.1 hlengths) hall
      | choice hchoice hmem hbranch =>
          rw [hchoice] at hkind
          cases hkind
          rename_i branch branches
          cases branches with
          | nil => simp at hmem
          | cons first branches =>
              -- the other branches were compared with the first
              obtain ⟨hfirst, hothers⟩ := Option.filter_eq_some_iff.1 hlength
              rcases List.mem_cons.1 hmem with rfl | hmem
              · exact ih hfirst words hbranch
              · have hother := List.all_eq_true.1 hothers branch hmem
                exact ih (by simpa using hother) words hbranch
      | wrapper hwrapper htarget =>
          rw [hwrapper] at hkind
          cases hkind
          exact ih hlength words htarget

/-- The rule at a place of the table is plain, refers to earlier rules only, and the lengths of its
inner parts can be computed. -/
def isLayeredAt (grammar : Grammar) (index : Nat) : Bool :=
  match grammar.kind? ⟨index⟩ with
  | none => false
  | some kind =>
      kind.isPlain && kind.references.all (fun target => decide (target.index < index)) &&
        kind.inner.all fun child => (grammar.fixedLength? grammar.rules.size child).isSome

/-- All rules of the table are plain, refer to earlier rules only, and have inner parts of computed
lengths. -/
def isLayered (grammar : Grammar) : Bool :=
  (List.range grammar.rules.size).all grammar.isLayeredAt

section Layered

variable (h : grammar.isLayered = true)
include h

theorem exists_kind_of_isLayered {id : RuleId} (hid : id.index < grammar.rules.size) :
    ∃ kind, grammar.kind? id = some kind ∧ kind.isPlain = true ∧
      (∀ target ∈ kind.references, target.index < id.index) ∧
      ∀ child ∈ kind.inner, ∃ n, grammar.HasLength child n := by
  have hat := List.all_eq_true.1 h id.index (List.mem_range.2 hid)
  rw [isLayeredAt] at hat
  cases hkind : grammar.kind? ⟨id.index⟩ with
  | none => simp [hkind] at hat
  | some kind =>
      simp only [hkind, Bool.and_eq_true, List.all_eq_true, decide_eq_true_eq] at hat
      obtain ⟨⟨hplain, hrefs⟩, hinner⟩ := hat
      refine ⟨kind, rfl, hplain, hrefs, ?_⟩
      intro child hchild
      obtain ⟨n, hn⟩ := Option.isSome_iff_exists.1 (hinner child hchild)
      exact ⟨n, hasLength_of_fixedLength? hn⟩

theorem index_lt_of_refers {source target : RuleId} (href : grammar.Refers source target) :
    target.index < source.index := by
  obtain ⟨kind, hkind, htarget⟩ := href
  obtain ⟨kind', hkind', -, hrefs, -⟩ := exists_kind_of_isLayered h (index_lt_of_kind hkind)
  rw [hkind] at hkind'
  cases hkind'
  exact hrefs target htarget

theorem index_le_of_reaches {id : RuleId} (hid : grammar.Reaches root id) :
    id.index ≤ root.index := by
  induction hid with
  | refl => exact le_rfl
  | tail _ href ih => exact (index_lt_of_refers h href).le.trans ih

/-- A layered grammar is position-determined from every rule of its table. -/
theorem positionDetermined_of_isLayered (hroot : root.index < grammar.rules.size) :
    grammar.PositionDetermined root where
  plain id hid := by
    obtain ⟨kind, hkind, hplain, -⟩ := exists_kind_of_isLayered h
      ((index_le_of_reaches h hid).trans_lt hroot)
    exact ⟨kind, hkind, hplain⟩
  acyclic id _ hcycle := by
    have hlt : ∀ target, Relation.TransGen grammar.Refers id target → target.index < id.index := by
      intro target htarget
      induction htarget with
      | single href => exact index_lt_of_refers h href
      | tail _ href ih => exact (index_lt_of_refers h href).trans ih
    exact absurd (hlt id hcycle) (lt_irrefl _)
  fixed id children singleToken isError hid hkind := by
    obtain ⟨kind, hkind', -, -, hinner⟩ := exists_kind_of_isLayered h
      ((index_le_of_reaches h hid).trans_lt hroot)
    rw [hkind] at hkind'
    cases hkind'
    exact hinner

end Layered

end Grammar

end Typeahead
