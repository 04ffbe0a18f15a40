/-
Outlines with references, read without them.

An outline of a referential grammar differs from one of the plain twin in two ways: a reference may be
put off, and at the cursor a list of names may stand in its place.  Read without references, the first
is a rule that is put off and the second is the placeholder alone.  Growing and pruning an outline
grows and prunes its plain reading, so what is known about position-determined grammars carries over.

This module defines plain readings and shows that counting and pruning do not see references.  Each
reference takes one pass more than a plain word, so the effort for an outline counts every rule that is
put off twice and every reference once.

Main definitions:

* `Typeahead.Outline.nameList` — the branches that take the place of a reference;
* `Typeahead.Outline.ReadsAs` — an outline and its plain reading;
* `Typeahead.Outline.effort` — a bound for the passes that unfold something.

Main results:

* `Typeahead.Outline.ReadsAs.count`, `Typeahead.Outline.ReadsAs.isExpanded` — an outline and its plain
  reading have the same number of words, and are expanded alike;
* `Typeahead.Outline.ReadsAs.retain` — pruning an outline prunes its plain reading;
* `Typeahead.Outline.effort_retain` — pruning never adds effort.
-/

import Typeahead.Proofs.Lockstep
import Typeahead.Proofs.Unreferenced

set_option relaxedAutoImplicit false
set_option autoImplicit false

namespace Typeahead

/-- The language with the plain twin for a grammar. -/
def Language.unreferenced (language : Language) : Language :=
  { language with grammar := language.grammar.unreferenced }

namespace Outline

/-! ### Plain readings -/

/-- The branches that take the place of a reference: the placeholder, and then the names. -/
def nameList (placeholder : String) (names : List String) : List Outline :=
  .ofWord (.pattern placeholder) :: names.map fun name => .ofWord (.literal name)

mutual

/-- The second outline is the first one read without references. -/
def ReadsAs (grammar : Grammar) : Outline → Outline → Prop
  | .word mark w, plain => plain = .word mark w
  | .deferred mark part, plain =>
      plain = .deferred mark { rule := part.rule } ∧
        (part.reference.isSome = true → ∃ id free, part.rule = some id ∧
          grammar.kind? id = some (.freeWord free) ∧ part.placeholder = free.placeholder)
  | .sequence mark info parts, plain =>
      ∃ plains, plain = .sequence mark info plains ∧ AllReadAs grammar parts plains
  | .choice mark branches, plain =>
      (∃ plains, plain = .choice mark plains ∧ AllReadAs grammar branches plains) ∨
        ∃ placeholder names, branches = nameList placeholder names ∧
          plain = .word mark (.pattern placeholder)
  | .blank _, _ | .scope _ _, _ => False

/-- The same for each of several outlines. -/
def AllReadAs (grammar : Grammar) : List Outline → List Outline → Prop
  | [], plains => plains = []
  | child :: children, plains =>
      ∃ plain rest, plains = plain :: rest ∧ ReadsAs grammar child plain ∧
        AllReadAs grammar children rest

end

variable {grammar : Grammar} {root : RuleId} {cost : RuleId → Nat} {query : Query}

theorem allReadAs_iff {children plains : List Outline} :
    AllReadAs grammar children plains ↔ List.Forall₂ (ReadsAs grammar) children plains := by
  induction children generalizing plains with
  | nil => rw [AllReadAs, List.forall₂_nil_left_iff]
  | cons child children ih =>
      rw [AllReadAs]
      constructor
      · rintro ⟨plain, rest, rfl, hchild, hrest⟩
        exact .cons hchild (ih.1 hrest)
      · rintro (_ | ⟨hchild, hrest⟩)
        exact ⟨_, _, rfl, hchild, ih.2 hrest⟩

theorem readsAs_sequence_iff {mark : Mark} {info : SequenceInfo} {parts : List Outline}
    {plain : Outline} :
    (Outline.sequence mark info parts).ReadsAs grammar plain ↔
      ∃ plains, plain = .sequence mark info plains ∧
        List.Forall₂ (ReadsAs grammar) parts plains := by
  simp only [ReadsAs, allReadAs_iff]

theorem readsAs_choice_iff {mark : Mark} {branches : List Outline} {plain : Outline} :
    (Outline.choice mark branches).ReadsAs grammar plain ↔
      (∃ plains, plain = .choice mark plains ∧ List.Forall₂ (ReadsAs grammar) branches plains) ∨
        ∃ placeholder names, branches = nameList placeholder names ∧
          plain = .word mark (.pattern placeholder) := by
  simp only [ReadsAs, allReadAs_iff]

theorem ReadsAs.mark {outline plain : Outline} (h : outline.ReadsAs grammar plain) :
    plain.mark = outline.mark := by
  cases outline with
  | blank | scope => exact h.elim
  | word mark w =>
      obtain rfl := h
      rfl
  | deferred mark part =>
      obtain ⟨rfl, -⟩ := h
      rfl
  | sequence mark info parts =>
      obtain ⟨plains, rfl, -⟩ := h
      rfl
  | choice mark branches =>
      rcases h with ⟨plains, rfl, -⟩ | ⟨placeholder, names, -, rfl⟩
      · rfl
      · rfl

/-! ### Counting -/

theorem count_of_mem_nameList {placeholder : String} {names : List String} {branch : Outline}
    (h : branch ∈ nameList placeholder names) : branch.count = 1 := by
  rcases List.mem_cons.1 h with rfl | h
  · rfl
  · obtain ⟨name, -, rfl⟩ := List.mem_map.1 h
    rfl

theorem maxCounts_nameList (placeholder : String) (names : List String) :
    maxCounts (nameList placeholder names) = 1 :=
  maxCounts_eq (List.cons_ne_nil _ _) fun _ hmem => count_of_mem_nameList hmem

theorem maxCounts_forall₂ {branches branches' : List Outline}
    (h : List.Forall₂ (fun branch branch' => branch'.count = branch.count) branches branches') :
    maxCounts branches' = maxCounts branches := by
  induction h with
  | nil => rfl
  | cons hbranch _ ih => simp only [maxCounts, hbranch, ih]

/-- A reference counts as unknown and a list of names as one word, like their plain readings. -/
theorem ReadsAs.count {outline plain : Outline} (h : outline.ReadsAs grammar plain) :
    plain.count = outline.count := by
  induction outline generalizing plain with
  | blank | scope => exact h.elim
  | word mark w =>
      obtain rfl := h
      rfl
  | deferred mark part =>
      obtain ⟨rfl, -⟩ := h
      rfl
  | sequence mark info parts ih =>
      obtain ⟨plains, rfl, hparts⟩ := readsAs_sequence_iff.1 h
      simp only [Outline.count, sumCounts_congr
        (forall₂_imp_of_mem hparts fun part hmem _ hpart => ih part hmem hpart)]
  | choice mark branches ih =>
      rcases readsAs_choice_iff.1 h with ⟨plains, rfl, hbranches⟩ | ⟨placeholder, names, rfl, rfl⟩
      · simp only [Outline.count, maxCounts_forall₂
          (forall₂_imp_of_mem hbranches fun branch hmem _ hbranch => ih branch hmem hbranch)]
      · simp only [Outline.count, maxCounts_nameList]

/-! ### Parts that are put off -/

theorem isExpanded_of_mem_nameList {placeholder : String} {names : List String} {branch : Outline}
    (h : branch ∈ nameList placeholder names) : branch.isExpanded = true := by
  rcases List.mem_cons.1 h with rfl | h
  · rfl
  · obtain ⟨name, -, rfl⟩ := List.mem_map.1 h
    rfl

theorem allExpanded_forall₂ {children children' : List Outline}
    (h : List.Forall₂ (fun child child' => child'.isExpanded = child.isExpanded)
      children children') : allExpanded children' = allExpanded children := by
  induction h with
  | nil => rfl
  | cons hchild _ ih => simp only [allExpanded, hchild, ih]

/-- A reference that is put off stays put off in the plain reading. -/
theorem ReadsAs.isExpanded {outline plain : Outline} (h : outline.ReadsAs grammar plain) :
    plain.isExpanded = outline.isExpanded := by
  induction outline generalizing plain with
  | blank | scope => exact h.elim
  | word mark w =>
      obtain rfl := h
      rfl
  | deferred mark part =>
      obtain ⟨rfl, -⟩ := h
      rfl
  | sequence mark info parts ih =>
      obtain ⟨plains, rfl, hparts⟩ := readsAs_sequence_iff.1 h
      exact allExpanded_forall₂
        (forall₂_imp_of_mem hparts fun part hmem _ hpart => ih part hmem hpart)
  | choice mark branches ih =>
      rcases readsAs_choice_iff.1 h with ⟨plains, rfl, hbranches⟩ | ⟨placeholder, names, rfl, rfl⟩
      · exact allExpanded_forall₂
          (forall₂_imp_of_mem hbranches fun branch hmem _ hbranch => ih branch hmem hbranch)
      · exact (allExpanded_iff.2 fun _ hmem => isExpanded_of_mem_nameList hmem).symm

/-! ### Pruning -/

/-- Two outlines after pruning, the second one being the plain reading of the first. -/
def RetainedReadsAs (grammar : Grammar) (kept keptPlain : Retained Outline) : Prop :=
  keptPlain.stays = kept.stays ∧ kept.value.ReadsAs grammar keptPlain.value

theorem retainParts_readsAs (query : Query) {parts plains : List Outline}
    (hparts : List.Forall₂ (fun part plain => ∀ start,
      RetainedReadsAs grammar (part.retain query start) (plain.retain query start)) parts plains)
    (hreads : List.Forall₂ (ReadsAs grammar) parts plains) (start : Nat) :
    (retainParts query start plains).stays = (retainParts query start parts).stays ∧
      List.Forall₂ (ReadsAs grammar) (retainParts query start parts).value
        (retainParts query start plains).value := by
  induction hparts generalizing start with
  | nil => exact ⟨rfl, .nil⟩
  | cons hpart _ ih =>
      obtain ⟨hstays, hvalue⟩ := hpart start
      obtain ⟨-, hrest⟩ := List.forall₂_cons.1 hreads
      simp only [retainParts, hstays, hvalue.count]
      split
      · exact ⟨rfl, .cons hvalue hrest⟩
      · split
        · exact ⟨rfl, .cons hvalue hrest⟩
        · obtain ⟨hstaysRest, hvalueRest⟩ := ih hrest _
          exact ⟨hstaysRest, .cons hvalue hvalueRest⟩

theorem retainBranches_readsAs (query : Query) {branches plains : List Outline} {start : Nat}
    (h : List.Forall₂ (fun branch plain =>
      RetainedReadsAs grammar (branch.retain query start) (plain.retain query start))
      branches plains) :
    List.Forall₂ (ReadsAs grammar) (retainBranches query start branches)
      (retainBranches query start plains) := by
  induction h with
  | nil => exact .nil
  | cons hbranch _ ih =>
      obtain ⟨hstays, hvalue⟩ := hbranch
      simp only [retainBranches, hstays]
      split
      · exact .cons hvalue ih
      · exact ih

/-- Pruning a list of names leaves the placeholder and some of the names. -/
theorem retainBranches_nameList (query : Query) (start : Nat) (placeholder : String)
    (names : List String) :
    retainBranches query start (nameList placeholder names) =
      nameList placeholder (names.filter fun name => query.accepts name start) := by
  have hnames : retainBranches query start (names.map fun name => .ofWord (.literal name)) =
      (names.filter fun name => query.accepts name start).map
        fun name => .ofWord (.literal name) := by
    induction names with
    | nil => rfl
    | cons name names ih =>
        have hkept : (Outline.ofWord (.literal name)).retain query start =
            ⟨.ofWord (.literal name), query.accepts name start⟩ := rfl
        rw [List.map_cons, retainBranches, List.filter_cons, ih, hkept]
        cases query.accepts name start <;> rfl
  rw [nameList, retainBranches, hnames]
  rfl

/-- Pruning an outline prunes its plain reading. -/
theorem ReadsAs.retain {outline plain : Outline} (h : outline.ReadsAs grammar plain)
    (query : Query) (start : Nat) :
    RetainedReadsAs grammar (outline.retain query start) (plain.retain query start) := by
  induction outline generalizing plain start with
  | blank | scope => exact h.elim
  | word mark w =>
      obtain rfl := h
      exact ⟨rfl, rfl⟩
  | deferred mark part =>
      obtain ⟨rfl, href⟩ := h
      exact ⟨rfl, rfl, href⟩
  | sequence mark info parts ih =>
      obtain ⟨plains, rfl, hparts⟩ := readsAs_sequence_iff.1 h
      simp only [Outline.retain]
      split
      · exact ⟨rfl, h⟩
      · obtain ⟨hstays, hvalue⟩ := retainParts_readsAs query (forall₂_imp_of_mem hparts
          fun part hmem _ hpart start => ih part hmem hpart start) hparts start
        exact ⟨hstays, readsAs_sequence_iff.2 ⟨_, rfl, hvalue⟩⟩
  | choice mark branches ih =>
      rcases readsAs_choice_iff.1 h with ⟨plains, rfl, hbranches⟩ | ⟨placeholder, names, rfl, rfl⟩
      · simp only [Outline.retain]
        split
        · exact ⟨rfl, h⟩
        · have hvalue := retainBranches_readsAs query (forall₂_imp_of_mem hbranches
            fun branch hmem _ hbranch => ih branch hmem hbranch start)
          refine ⟨?_, readsAs_choice_iff.2 (.inl ⟨_, rfl, hvalue⟩)⟩
          generalize retainBranches query start branches = kept,
            retainBranches query start plains = kept' at hvalue
          cases hvalue <;> rfl
      · simp only [Outline.retain]
        split
        · exact ⟨rfl, h⟩
        · rw [retainBranches_nameList]
          exact ⟨rfl, readsAs_choice_iff.2 (.inr ⟨placeholder, _, rfl, rfl⟩)⟩

/-! ### Effort -/

mutual

/-- A bound for the passes that unfold something: a rule that is put off is unfolded into what costs
less, but a reference may be left, which takes one more pass. -/
def effort (cost : RuleId → Nat) : Outline → Nat
  | .deferred _ part => if part.reference.isSome then 1 else 2 * part.rule.elim 0 cost
  | .sequence _ _ children | .choice _ children => totalEffort cost children
  | .blank _ | .word _ _ | .scope _ _ => 0

/-- The effort for several outlines. -/
def totalEffort (cost : RuleId → Nat) : List Outline → Nat
  | [] => 0
  | child :: children => effort cost child + totalEffort cost children

end

theorem totalEffort_le {ids : List RuleId} {nodes : List Outline}
    (h : List.Forall₂ (fun id node => node.effort cost ≤ 2 * cost id) ids nodes) :
    totalEffort cost nodes ≤ 2 * (ids.map cost).sum := by
  induction h with
  | nil => exact Nat.zero_le _
  | cons hnode _ ih =>
      rw [totalEffort, List.map_cons, List.sum_cons]
      omega

theorem totalEffort_nameList (cost : RuleId → Nat) (placeholder : String) (names : List String) :
    totalEffort cost (nameList placeholder names) = 0 := by
  have hnames : totalEffort cost (names.map fun name => .ofWord (.literal name)) = 0 := by
    induction names with
    | nil => rfl
    | cons name names ih =>
        rw [List.map_cons, totalEffort, ih]
        rfl
  rw [nameList, totalEffort, hnames]
  rfl

/-- Pruning never adds effort. -/
theorem effort_retain (cost : RuleId → Nat) (query : Query) (outline : Outline) (start : Nat) :
    (outline.retain query start).value.effort cost ≤ outline.effort cost := by
  induction outline generalizing start with
  | blank | word | deferred | scope => exact le_rfl
  | sequence mark info parts ih =>
      rw [Outline.retain]
      split
      · exact le_rfl
      · next hwithin =>
        clear hwithin
        simp only [effort]
        induction parts generalizing start with
        | nil => exact le_rfl
        | cons part parts ihparts =>
            have hpart := ih part (List.mem_cons_self ..) start
            have hrest := ihparts fun other hother => ih other (List.mem_cons_of_mem _ hother)
            simp only [retainParts]
            split
            · exact Nat.add_le_add_right hpart _
            · split
              · exact Nat.add_le_add_right hpart _
              · exact Nat.add_le_add hpart (hrest _)
  | choice mark branches ih =>
      rw [Outline.retain]
      split
      · exact le_rfl
      · simp only [effort]
        induction branches with
        | nil => exact le_rfl
        | cons branch branches ihbranches =>
            have hbranch := ih branch (List.mem_cons_self ..) start
            have hrest := ihbranches fun other hother => ih other (List.mem_cons_of_mem _ hother)
            simp only [retainBranches]
            split
            · exact Nat.add_le_add hbranch hrest
            · exact hrest.trans (Nat.le_add_left ..)

end Outline

end Typeahead
