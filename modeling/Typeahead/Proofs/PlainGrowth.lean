/-
Growing outlines with references.

Unfolding a rule of a referential grammar gives an outline whose plain reading stands for the rule in
the twin, and a pass over an outline is a step of its plain reading.

Each rule that is put off may become a reference that is put off, so a pass need not make the plain
reading lighter.  It makes the effort smaller instead, and the effort for the seed is within the number
of passes allowed.

Main definitions:

* `Typeahead.Language.UnfoldsTo` — what unfolding a rule comes to;
* `Typeahead.Language.GrowsTo` — what a pass comes to, beside the plain readings before and after;
* `Typeahead.Outline.Readable` — the outlines with a regular plain reading.

Main results:

* `Typeahead.Language.unfoldWithin_unfoldsTo` — unfolding a rule has an outcome;
* `Typeahead.Language.grow_growsTo` — a pass over a readable outline has an outcome;
* `Typeahead.Language.readable_grow`, `Typeahead.Language.readable_retain` — outlines stay readable;
* `Typeahead.Language.exists_settle` — a request outside all blocks has an outcome.
-/

import Typeahead.Proofs.PlainReading

set_option relaxedAutoImplicit false
set_option autoImplicit false

namespace Typeahead

/-- A list between two others, from an entry between each two entries. -/
theorem exists_forall₂_between {α β γ : Type} {R : α → γ → Prop} {S : β → γ → Prop} {xs : List α}
    {ys : List β} (h : List.Forall₂ (fun x y => ∃ z, R x z ∧ S y z) xs ys) :
    ∃ zs, List.Forall₂ R xs zs ∧ List.Forall₂ S ys zs := by
  induction h with
  | nil => exact ⟨[], .nil, .nil⟩
  | cons hxy _ ih =>
      obtain ⟨z, hxz, hyz⟩ := hxy
      obtain ⟨zs, hxs, hys⟩ := ih
      exact ⟨z :: zs, .cons hxz hxs, .cons hyz hys⟩

namespace Outline

variable {grammar : Grammar} {root : RuleId} {cost : RuleId → Nat}

/-! ### References -/

/-- The node puts a reference off, for the given rule and in the given slot. -/
def IsReference (id : RuleId) (slot : Option Slot) (node : Outline) : Prop :=
  ∃ mark part, node = .deferred mark part ∧ mark.complete = false ∧ mark.slot = slot ∧
    part.rule = some id ∧ part.reference.isSome = true

theorem IsReference.slot {id : RuleId} {slot : Option Slot} {node : Outline}
    (h : node.IsReference id slot) : node.mark.slot = slot := by
  obtain ⟨mark, part, rfl, -, hslot, -⟩ := h
  exact hslot

theorem isReference_refer (node : Outline) (id : RuleId) (reference : SymbolRef) :
    (node.refer (some id) reference).IsReference id node.mark.slot :=
  ⟨_, _, rfl, rfl, rfl, rfl, rfl⟩

theorem tagByKind_eq_or (free : FreeWord) (id : RuleId) (node : Outline) :
    node.tagByKind free id = node ∨ (node.tagByKind free id).IsReference id node.mark.slot := by
  unfold tagByKind
  split
  · exact .inr (isReference_refer ..)
  · exact .inl rfl

theorem tagByName_eq_or (free : FreeWord) (id : RuleId) (node : Outline) :
    node.tagByName free id = node ∨ (node.tagByName free id).IsReference id node.mark.slot := by
  unfold tagByName
  split
  · exact .inr (isReference_refer ..)
  · exact .inl rfl

/-- A free word is put into a node as a pattern, or as a reference that is put off. -/
theorem Fillable.fillFree_cases {node : Outline} (h : node.Fillable grammar) (id : RuleId)
    (free : FreeWord) :
    node.fillFree grammar id free = node.fill (.pattern free.placeholder) ∨
      ∃ mark reference, mark.complete = false ∧ mark.slot = node.mark.slot ∧
        node.fillFree grammar id free = .deferred mark
          { rule := some id, reference := some reference, placeholder := free.placeholder } := by
  have hload : node.tagByLoad grammar id = node := by
    rw [tagByLoad, h.slot.2]
    cases node.refersToType <;> rfl
  -- a reference that was put off once is never taken back
  have htagged : (node.tagByKind free id).tagByName free id = node ∨
      ((node.tagByKind free id).tagByName free id).IsReference id node.mark.slot := by
    rcases tagByKind_eq_or free id node with hkind | hkind
    · rw [hkind]
      exact tagByName_eq_or free id node
    · refine .inr ?_
      rcases tagByName_eq_or free id (node.tagByKind free id) with hname | hname
      · rwa [hname]
      · rwa [hkind.slot] at hname
  rw [fillFree, hload]
  rcases htagged with hsame | ⟨mark, part, hnode, hmark, hslot, hrule, href⟩
  · left
    have hreference := h.reference
    rw [hsame]
    cases node with
    | deferred mark part =>
        simp only [reference?] at hreference
        simp [showPlaceholder, hreference]
    | _ => rfl
  · right
    obtain ⟨reference, hreference⟩ := Option.isSome_iff_exists.1 href
    refine ⟨mark, reference, hmark, hslot, ?_⟩
    rw [hnode, showPlaceholder, if_pos href, hrule, hreference]

theorem Fillable.of_unreferenced {node : Outline} (h : node.Fillable grammar.unreferenced) :
    node.Fillable grammar :=
  ⟨h.complete, (Grammar.plainSlot_unreferenced _).1 h.slot, h.reference⟩

theorem readsAs_fill (node : Outline) (w : Word) : (node.fill w).ReadsAs grammar (node.fill w) := rfl

/-- The later parts of a sequence are their own plain readings. -/
theorem readsAs_deferRest (id : RuleId) (children : List RuleId) :
    List.Forall₂ (ReadsAs grammar) (Language.deferRest id children)
      (Language.deferRest id children) := by
  refine List.forall₂_same.2 fun part hmem => ?_
  obtain ⟨entry, -, rfl⟩ := List.mem_map.1 hmem
  exact ⟨rfl, by simp⟩

theorem effort_deferRest (id : RuleId) (children : List RuleId) :
    List.Forall₂ (fun child node => node.effort cost ≤ 2 * cost child) children
      (Language.deferRest id children) := by
  rw [Language.deferRest]
  generalize 1 = first
  induction children generalizing first with
  | nil => exact .nil
  | cons child children ih =>
      rw [List.zipIdx_cons, List.map_cons]
      exact .cons le_rfl (ih _)

end Outline

/-! ### Unfolding -/

namespace Language

open Outline

variable {language : Language} {root : RuleId} {cost : RuleId → Nat} {query : Query} {limit : Nat}

/-- What unfolding a rule comes to: the plain reading of the node stands for the rule, and the effort
for the node is smaller. -/
structure UnfoldsTo (language : Language) (root : RuleId) (cost : RuleId → Nat) (id : RuleId)
    (unfolded : Unfolded) (plain : Outline) : Prop where
  readsAs : unfolded.node.ReadsAs language.grammar plain
  standsFor : plain.StandsFor language.grammar.unreferenced root cost id
  effort : unfolded.node.effort cost < 2 * cost id

/-- A free word is unfolded into its placeholder, or into a reference that is put off. -/
theorem unfoldsTo_free (hg : language.grammar.unreferenced.PositionDetermined root) {id : RuleId}
    (hid : language.grammar.unreferenced.Reaches root id) {free : FreeWord}
    (hkind : language.grammar.kind? id = some (.freeWord free)) (hcost : 0 < cost id)
    {node : Outline} (hnode : node.Fillable language.grammar.unreferenced) (grew : Bool) :
    ∃ plain, language.UnfoldsTo root cost id
      (settled (node.fillFree language.grammar id free) grew) plain := by
  have hkind' : language.grammar.unreferenced.kind? id = some (.freeWord free.unreferenced) := by
    rw [Grammar.kind?_unreferenced, hkind]
    rfl
  rcases hnode.of_unreferenced.fillFree_cases id free with
    hfill | ⟨mark, reference, hmark, hslot, hfill⟩
  · refine ⟨node.fill (.pattern free.placeholder), ?_, ?_, ?_⟩
    · simp only [settled, hfill]
      exact readsAs_fill ..
    · refine hnode.standsFor_fill rfl free.placeholder_isEmpty ?_ (hg.parseChoices_free hid hkind')
      intro words
      rw [Grammar.derives_free hkind', free.placeholder_unreferenced]
    · simp only [settled, hfill, fill, Outline.effort]
      omega
  · refine ⟨.deferred mark { rule := some id }, ?_, ?_, ?_⟩
    · simp only [settled, hfill]
      exact ⟨rfl, fun _ => ⟨id, free, rfl, hkind, rfl⟩⟩
    · exact standsFor_deferred (hslot ▸ hnode.slot) hmark rfl rfl hid
    · simp only [settled, hfill, Outline.effort, Option.isSome_some, if_true]
      omega

/-- Unfolding a rule to more than its rank has an outcome, whose plain reading stands for the rule. -/
theorem unfoldWithin_unfoldsTo (hg : language.grammar.unreferenced.PositionDetermined root)
    (hprice : language.grammar.unreferenced.Priced root cost) {fuel : Nat} {id : RuleId}
    (hid : language.grammar.unreferenced.Reaches root id)
    (hfuel : language.grammar.unreferenced.rank id < fuel) (scope : Option TypeId)
    (openBlock : Bool) {node : Outline} (hnode : node.Fillable language.grammar.unreferenced) :
    ∃ unfolded, language.unfoldWithin fuel scope openBlock (some id) node = some unfolded ∧
      ∃ plain, language.UnfoldsTo root cost id unfolded plain := by
  induction fuel generalizing id openBlock node with
  | zero => omega
  | succ fuel ih =>
      obtain ⟨kind', hkind', hplain⟩ := hg.plain id hid
      have hcost := hprice id kind' hid hkind'
      have hbelow : ∀ target, language.grammar.unreferenced.Refers id target →
          language.grammar.unreferenced.rank target < fuel := fun target href => by
        have := hg.rank_lt_rank hid href
        omega
      obtain ⟨kind, hkind, rfl⟩ := Option.map_eq_some_iff.1
        ((Grammar.kind?_unreferenced id).symm.trans hkind')
      rw [RuleKind.references_unreferenced] at hcost
      cases kind with
      | leaf leaf =>
          refine ⟨_, by simp only [unfoldWithin, hkind]; rfl, _, readsAs_fill .., ?_, ?_⟩
          · rw [← Grammar.displayName_unreferenced]
            exact hnode.standsFor_fill (leaf.word_isBlock _) (Leaf.word_isEmpty _ hplain)
              (fun _ => Grammar.derives_leaf hkind') (hg.parseChoices_leaf hid hkind')
          · simp only [settled, fill, Outline.effort]
            omega
      | freeWord free =>
          exact ⟨_, by simp only [unfoldWithin, hkind]; rfl,
            unfoldsTo_free hg hid hkind ((Nat.zero_le _).trans_lt hcost) hnode _⟩
      | sequence children singleToken isError =>
          simp only [RuleKind.unreferenced, RuleKind.isPlain, Bool.and_eq_true,
            Bool.not_eq_true'] at hplain
          obtain ⟨hne, rfl⟩ := hplain
          cases children with
          | nil => simp at hne
          | cons first rest =>
              have href : ∀ child ∈ first :: rest,
                  language.grammar.unreferenced.Refers id child :=
                fun child hchild => Grammar.refers_of_kind hkind' hchild
              have hfirst := href first (List.mem_cons_self ..)
              -- only the first part is unfolded, the others are put off
              obtain ⟨head, hhead, plain, hunfolds⟩ := ih (hid.refers hfirst)
                (hbelow first hfirst) false (fillable_blank (hg.plainSlot hid 0))
              have hparts : List.Forall₂ (StandsFor language.grammar.unreferenced root cost)
                  (first :: rest) (plain :: deferRest id rest) :=
                .cons hunfolds.standsFor (@standsFor_deferRest language.unreferenced root cost hg id
                  hid _ fun child hchild =>
                    hid.refers (href child (List.mem_cons_of_mem _ hchild)))
              have heffort := totalEffort_le (.cons hunfolds.effort.le (effort_deferRest id rest))
              refine ⟨_, by simp only [unfoldWithin, hkind, hhead]; rfl,
                .sequence node.mark
                  { rule := some id, name := language.grammar.displayName id, singleToken }
                  (plain :: deferRest id rest), ?_, ?_, ?_⟩
              · exact readsAs_sequence_iff.2
                  ⟨_, rfl, .cons hunfolds.readsAs (readsAs_deferRest id rest)⟩
              · exact StandsFor.sequence hg hprice hid hkind' (by simp) hnode.complete hparts
              · simp only [RuleKind.references] at hcost
                simp only [settled, Outline.effort]
                omega
      | choice branches =>
          have hne : branches ≠ [] := by
            rintro rfl
            simp [RuleKind.unreferenced, RuleKind.isPlain] at hplain
          obtain ⟨unfolded, hunfolded, hall⟩ :=
            exists_mapM_eq_some fun branch (hbranch : branch ∈ branches) =>
              have href := Grammar.refers_of_kind hkind' hbranch
              ih (hid.refers href) (hbelow branch href) false
                (fillable_blank Grammar.plainSlot_none)
          obtain ⟨plains, hstands, hreads⟩ := exists_forall₂_between
            (R := StandsFor language.grammar.unreferenced root cost)
            (S := fun unfolded plain => unfolded.node.ReadsAs language.grammar plain)
            (hall.imp fun _ _ h => h.imp fun _ hunfolds => ⟨hunfolds.standsFor, hunfolds.readsAs⟩)
          have heffort : totalEffort cost (unfolded.map Unfolded.node) ≤
              2 * (branches.map cost).sum :=
            totalEffort_le (List.forall₂_map_right_iff.2
              (hall.imp fun _ _ h => h.elim fun _ hunfolds => hunfolds.effort.le))
          refine ⟨_, by simp only [unfoldWithin, hkind, hunfolded]; rfl,
            .choice node.mark plains, ?_, ?_, ?_⟩
          · exact readsAs_choice_iff.2 (.inl ⟨_, rfl, List.forall₂_map_left_iff.2 hreads⟩)
          · refine StandsFor.choice hg hprice hid hkind' ?_ hnode.complete hstands
            rintro rfl
            exact hne (List.forall₂_nil_right_iff.1 hstands)
          · simp only [RuleKind.references] at hcost
            simp only [settled, Outline.effort]
            omega
      | wrapper wrapping target =>
          cases target with
          | none => simp [RuleKind.unreferenced, RuleKind.isPlain] at hplain
          | some target =>
              have href : language.grammar.unreferenced.Refers id target :=
                Grammar.refers_of_kind hkind' (by simp [RuleKind.unreferenced, RuleKind.references])
              -- the same node is filled with the target
              obtain ⟨unfolded, hunfolded, plain, hunfolds⟩ := ih (hid.refers href)
                (hbelow target href) openBlock hnode
              have hle : cost target < cost id := by
                simpa [RuleKind.references] using hcost
              have heffort := hunfolds.effort
              refine ⟨unfolded, by simp only [unfoldWithin, hkind, hunfolded], plain,
                hunfolds.readsAs, hunfolds.standsFor.wrapper hg hid hkind' hle.le, by omega⟩
      | block => simp [RuleKind.unreferenced, RuleKind.isPlain] at hplain
      | typeLoad => simp [RuleKind.unreferenced, RuleKind.isPlain] at hplain
      | typeCommand => simp [RuleKind.unreferenced, RuleKind.isPlain] at hplain
      | unknown => simp [RuleKind.unreferenced, RuleKind.isPlain] at hplain

theorem unfold_unfoldsTo (hg : language.grammar.unreferenced.PositionDetermined root)
    (hprice : language.grammar.unreferenced.Priced root cost) {id : RuleId}
    (hid : language.grammar.unreferenced.Reaches root id) (scope : Option TypeId)
    (openBlock : Bool) {node : Outline} (hnode : node.Fillable language.grammar.unreferenced) :
    ∃ unfolded, language.unfold scope openBlock (some id) node = some unfolded ∧
      ∃ plain, language.UnfoldsTo root cost id unfolded plain := by
  have hrank := hg.rank_lt_size hid
  rw [Grammar.size_unreferenced] at hrank
  exact unfoldWithin_unfoldsTo hg hprice hid (by rw [unfoldFuel]; omega) scope openBlock hnode

end Language

/-! ### Closing nodes -/

namespace Outline

variable {grammar : Grammar} {root : RuleId} {cost : RuleId → Nat}

theorem ReadsAs.closeSequence {parts plains : List Outline}
    (h : List.Forall₂ (ReadsAs grammar) parts plains) (mark : Mark) (info : SequenceInfo)
    (complete : Bool) (limit : Int) :
    (closeSequence mark info parts complete limit).ReadsAs grammar
      (Outline.closeSequence mark info plains complete limit) := by
  have hsum : sumCounts plains = sumCounts parts := sumCounts_congr (h.imp fun _ _ => ReadsAs.count)
  simp only [Outline.closeSequence, hsum, ← h.length_eq]
  split
  · exact readsAs_sequence_iff.2 ⟨plains, rfl, h⟩
  · exact readsAs_sequence_iff.2 ⟨plains, rfl, h⟩

theorem ReadsAs.closeChoice {branches plains : List Outline}
    (h : List.Forall₂ (ReadsAs grammar) branches plains) (mark : Mark) :
    (closeChoice mark branches).ReadsAs grammar (Outline.closeChoice mark plains) := by
  have hmax : maxCounts plains = maxCounts branches :=
    maxCounts_forall₂ (h.imp fun _ _ => ReadsAs.count)
  have hall : (plains.all fun branch => branch.mark.complete) =
      branches.all fun branch => branch.mark.complete := by
    clear hmax
    induction h with
    | nil => rfl
    | cons hbranch _ ih => rw [List.all_cons, List.all_cons, hbranch.mark, ih]
  simp only [Outline.closeChoice, hmax, hall]
  split
  · exact readsAs_choice_iff.2 (.inl ⟨plains, rfl, h⟩)
  · exact readsAs_choice_iff.2 (.inl ⟨plains, rfl, h⟩)

/-- A list of names is complete, with one word. -/
theorem closeChoice_nameList (mark : Mark) (placeholder : String) (names : List String) :
    closeChoice mark (nameList placeholder names) =
      .choice (mark.settle 1) (nameList placeholder names) := by
  rw [closeChoice, if_pos, maxCounts_nameList]
  refine List.all_eq_true.2 fun branch hmem => ?_
  rcases List.mem_cons.1 hmem with rfl | hmem
  · rfl
  · obtain ⟨name, -, rfl⟩ := List.mem_map.1 hmem
    rfl

/-- A word stays what it is when its count is settled. -/
theorem follows_settle {mark : Mark} {w : Word} (h : (Outline.word mark w).Regular grammar root) :
    Follows grammar root cost (.word mark w) (.word (mark.settle 1) w) where
  regular := h
  yields _ hwords := hwords
  uniform _ _ := rfl
  extent _ := rfl
  expanded _ := rfl
  weight := le_rfl
  variants := le_rfl

/-- What stands for a rule follows the rule put off. -/
theorem StandsFor.follows {id : RuleId} {node : Outline} (h : StandsFor grammar root cost id node)
    (hg : grammar.PositionDetermined root) {mark : Mark} {part : Deferred}
    (hrule : part.rule = some id) : Follows grammar root cost (.deferred mark part) node where
  regular := h.regular
  yields words hwords := ⟨id, hrule, (h.yields words).1 hwords⟩
  uniform huniform := h.uniform (huniform id hrule)
  extent huniform := by simp [h.extent hg (huniform id hrule), Outline.extent, hrule]
  expanded := by simp [isExpanded]
  weight := by simp [Outline.weight, hrule, h.weight]
  variants := by simp [Outline.variants, hrule, h.variants]

end Outline

namespace Language

open Outline

/-! ### Outcomes of a pass -/

section Outcomes

variable {language : Language} {query : Query} {limit : Int} {scope : Option TypeId} {index : Int}

theorem grow_sequence_eq_some {mark : Mark} (hmark : mark.complete = false) {info : SequenceInfo}
    {parts : List Outline} {growth : Growth}
    (h : language.grow query limit scope index (.sequence mark info parts) = some growth) :
    ∃ grown mark', language.growParts query limit scope index parts = some grown ∧
      growth = ⟨.sequence mark' info grown.parts, grown.index, grown.grew⟩ := by
  rw [grow, if_neg (by simp [hmark])] at h
  obtain ⟨grown, hgrown, rfl⟩ := Option.map_eq_some_iff.1 h
  obtain ⟨mark', hclose⟩ := closeSequence_eq mark info grown.parts grown.complete limit
  exact ⟨grown, mark', hgrown, by rw [hclose]⟩

theorem grow_choice_eq_some {mark : Mark} (hmark : mark.complete = false) {branches : List Outline}
    {growth : Growth}
    (h : language.grow query limit scope index (.choice mark branches) = some growth) :
    ∃ grown mark', List.Forall₂ (fun branch growth =>
        language.grow query limit scope index branch = some growth) branches grown ∧
      growth = ⟨.choice mark' (grown.map Growth.node), agreedIndex index (grown.map Growth.index),
        grown.any Growth.grew⟩ := by
  rw [grow, if_neg (by simp [hmark]), growBranches_eq_mapM] at h
  obtain ⟨grown, hgrown, rfl⟩ := Option.map_eq_some_iff.1 h
  obtain ⟨mark', hclose⟩ := closeChoice_eq mark (grown.map Growth.node)
  exact ⟨grown, mark', mapM_eq_some_iff.1 hgrown, by rw [hclose]⟩

theorem growParts_cons_eq_some (hgo : ¬ limit ≤ index) {part : Outline} {parts : List Outline}
    {grown : PartsGrowth}
    (h : language.growParts query limit scope index (part :: parts) = some grown) :
    ∃ head rest, language.grow query limit (part.scopeAt scope) index part = some head ∧
      language.growParts query limit (part.scopeAt scope) head.index parts = some rest ∧
      grown = ⟨head.node :: rest.parts, rest.index, head.grew || rest.grew,
        head.node.mark.complete && rest.complete⟩ := by
  rw [growParts, if_neg hgo] at h
  obtain ⟨head, hhead, h⟩ := Option.bind_eq_some_iff.1 h
  obtain ⟨rest, hrest, rfl⟩ := Option.map_eq_some_iff.1 h
  exact ⟨head, rest, hhead, hrest, rfl⟩

end Outcomes

/-! ### One pass -/

variable {language : Language} {root : RuleId} {cost : RuleId → Nat} {query : Query} {limit : Nat}

/-- What a pass over a node comes to, beside the plain readings of the node before and after the
pass.  If the pass knows where the node ends, then the node is expanded and the place is right; and it
does know, if the node is expanded and ends before the limit. -/
structure GrowsTo (language : Language) (root : RuleId) (cost : RuleId → Nat) (limit : Nat)
    (index : Int) (before plain : Outline) (growth : Growth) (plain' : Outline) : Prop where
  readsAs : growth.node.ReadsAs language.grammar plain'
  follows : Follows language.grammar.unreferenced root cost plain plain'
  keeps : ∀ words, plain.Yields language.grammar.unreferenced words →
    plain'.Yields language.grammar.unreferenced words
  effort : growth.node.effort cost ≤ before.effort cost
  lighter : growth.grew = true → growth.node.effort cost < before.effort cost
  ends : plain.Uniform language.grammar.unreferenced → 0 ≤ growth.index → growth.index < limit →
    0 ≤ index ∧ plain'.isExpanded = true ∧
      growth.index = index + plain.extent language.grammar.unreferenced
  reads : plain.Uniform language.grammar.unreferenced → ∀ start, Reads limit start index →
    Reads limit (start + plain.extent language.grammar.unreferenced) growth.index
  known : plain.Uniform language.grammar.unreferenced → plain'.isExpanded = true → 0 ≤ index →
    index + plain.extent language.grammar.unreferenced < limit →
    growth.index = index + plain.extent language.grammar.unreferenced

/-- What a pass over the parts of a sequence comes to. -/
structure PartsGrowTo (language : Language) (root : RuleId) (cost : RuleId → Nat) (limit : Nat)
    (index : Int) (before plains : List Outline) (grown : PartsGrowth) (plains' : List Outline) :
    Prop where
  readsAs : List.Forall₂ (ReadsAs language.grammar) grown.parts plains'
  follows : List.Forall₂ (Follows language.grammar.unreferenced root cost) plains plains'
  keeps : ∀ words, YieldsAll language.grammar.unreferenced plains words →
    YieldsAll language.grammar.unreferenced plains' words
  effort : totalEffort cost grown.parts ≤ totalEffort cost before
  lighter : grown.grew = true → totalEffort cost grown.parts < totalEffort cost before
  ends : UniformAll language.grammar.unreferenced plains → 0 ≤ grown.index → grown.index < limit →
    0 ≤ index ∧ allExpanded plains' = true ∧
      grown.index = index + extentAll language.grammar.unreferenced plains
  reads : UniformAll language.grammar.unreferenced plains → ∀ start, Reads limit start index →
    Reads limit (start + extentAll language.grammar.unreferenced plains) grown.index
  known : UniformAll language.grammar.unreferenced plains → allExpanded plains' = true → 0 ≤ index →
    index + extentAll language.grammar.unreferenced plains < limit →
    grown.index = index + extentAll language.grammar.unreferenced plains

/-- What a pass over the branches of a choice comes to. -/
structure BranchesGrowTo (language : Language) (root : RuleId) (cost : RuleId → Nat) (limit : Nat)
    (index : Int) (before plains : List Outline) (grown : List Growth) (plains' : List Outline) :
    Prop where
  readsAs : List.Forall₂ (fun growth plain => ReadsAs language.grammar growth.node plain)
    grown plains'
  follows : List.Forall₂ (Follows language.grammar.unreferenced root cost) plains plains'
  keeps : ∀ words, YieldsAny language.grammar.unreferenced plains words →
    YieldsAny language.grammar.unreferenced plains' words
  effort : totalEffort cost (grown.map Growth.node) ≤ totalEffort cost before
  lighter : grown.any Growth.grew = true →
    totalEffort cost (grown.map Growth.node) < totalEffort cost before
  ends : ∀ (n : Nat) (stop : Int), UniformAny language.grammar.unreferenced n plains → 0 ≤ stop →
    stop < limit → (∀ growth ∈ grown, growth.index = stop) →
    allExpanded plains' = true ∧ (plains ≠ [] → 0 ≤ index ∧ stop = index + n)
  reads : ∀ n, UniformAny language.grammar.unreferenced n plains → ∀ start,
    Reads limit start index → ∀ growth ∈ grown, Reads limit (start + n) growth.index
  known : ∀ n : Nat, UniformAny language.grammar.unreferenced n plains → allExpanded plains' = true →
    0 ≤ index → index + n < limit → ∀ growth ∈ grown, growth.index = index + n

/-- A node that a pass leaves alone. -/
theorem growsTo_same {outline plain : Outline} {index stop : Int}
    (hreads : outline.ReadsAs language.grammar plain)
    (hreg : plain.Regular language.grammar.unreferenced root) (hexp : plain.isExpanded = true)
    (hstop : plain.Uniform language.grammar.unreferenced →
      stop = advance index (plain.extent language.grammar.unreferenced)) :
    language.GrowsTo root cost limit index outline plain ⟨outline, stop, false⟩ plain where
  readsAs := hreads
  follows := .refl hreg
  keeps _ hwords := hwords
  effort := le_rfl
  lighter := by simp
  ends huniform hnonneg _ := by
    simp only [hstop huniform] at hnonneg ⊢
    obtain ⟨hindex, hcount⟩ := nonneg_of_advance_nonneg hnonneg
    exact ⟨hindex, hexp, advance_of_nonneg hindex hcount⟩
  reads huniform start hstart := by
    simp only [hstop huniform]
    exact hstart.advance _
  known huniform _ hindex _ := by
    simp only [hstop huniform]
    exact advance_of_nonneg hindex (Int.natCast_nonneg _)

/-- A rule or a reference that is put off makes way for something that stands for the rule. -/
theorem growsTo_deferred (hg : language.grammar.unreferenced.PositionDetermined root)
    {id : RuleId} {mark : Mark} {part : Deferred} (hrule : part.rule = some id)
    {unfolded : Unfolded} {plain' : Outline} (hreads : unfolded.node.ReadsAs language.grammar plain')
    (hstands : plain'.StandsFor language.grammar.unreferenced root cost id)
    (heffort : unfolded.node.effort cost < (Outline.deferred mark part).effort cost) (index : Int) :
    language.GrowsTo root cost limit index (.deferred mark part)
      (.deferred mark { rule := part.rule })
      ⟨unfolded.node, advance index unfolded.node.count, unfolded.grew⟩ plain' := by
  have hfollows : Follows language.grammar.unreferenced root cost
      (.deferred mark { rule := part.rule }) plain' := hstands.follows hg hrule
  have hcountEq : ∀ huniform : (Outline.deferred mark { rule := part.rule }).Uniform
      language.grammar.unreferenced, plain'.isExpanded = true → unfolded.node.count =
        (Outline.deferred mark { rule := part.rule }).extent language.grammar.unreferenced := by
    intro huniform hexp
    rw [← hreads.count, (hfollows.uniform huniform).count_eq hstands.regular hexp,
      hfollows.extent huniform]
  refine ⟨hreads, hfollows, ?_, heffort.le, fun _ => heffort, ?_, ?_, ?_⟩
  · rintro words ⟨other, hother, hwords⟩
    obtain rfl := Option.some.inj (hother.symm.trans hrule)
    exact (hstands.yields words).2 hwords
  · intro huniform hnonneg _
    obtain ⟨hindex, hcount⟩ := nonneg_of_advance_nonneg hnonneg
    -- a count that is known belongs to an expanded outline
    have hexp := hstands.regular.isExpanded_of_count (hreads.count ▸ hcount)
    exact ⟨hindex, hexp, (advance_of_nonneg hindex hcount).trans (by rw [hcountEq huniform hexp])⟩
  · intro huniform start hstart
    by_cases hcount : unfolded.node.count < 0
    · exact .inl (if_pos (.inr hcount))
    · have hexp := hstands.regular.isExpanded_of_count (hreads.count ▸ not_lt.1 hcount)
      simp only [hcountEq huniform hexp]
      exact hstart.advance _
  · intro huniform hexp hindex _
    simp only [hcountEq huniform hexp]
    exact advance_of_nonneg hindex (Int.natCast_nonneg _)

/-- A reference that is put off makes way for the list of names at the active word, and for its
placeholder anywhere else; what else is put off is unfolded. -/
theorem growDeferred_growsTo (hg : language.grammar.unreferenced.PositionDetermined root)
    (hprice : language.grammar.unreferenced.Priced root cost) {mark : Mark} {part : Deferred}
    {plain : Outline} (hreads : (Outline.deferred mark part).ReadsAs language.grammar plain)
    (hreg : plain.Regular language.grammar.unreferenced root) (scope : Option TypeId)
    (index : Int) :
    ∃ unfolded, language.growDeferred query scope index mark part = some unfolded ∧
      ∃ plain', language.GrowsTo root cost limit index (.deferred mark part) plain
        ⟨unfolded.node, advance index unfolded.node.count, unfolded.grew⟩ plain' := by
  obtain ⟨rfl, href⟩ := hreads
  obtain ⟨hslot, hmark, -, id, hrule, hid⟩ := hreg
  replace hrule : part.rule = some id := hrule
  cases hreference : part.reference with
  | none =>
      have hnode : (Outline.deferred mark part).Fillable language.grammar.unreferenced :=
        ⟨hmark, hslot, hreference⟩
      obtain ⟨unfolded, hunfolded, plain', hunfolds⟩ :=
        unfold_unfoldsTo hg hprice hid scope false hnode
      refine ⟨unfolded, by simp [growDeferred, hreference, hrule, hunfolded], plain', ?_⟩
      refine growsTo_deferred hg hrule hunfolds.readsAs hunfolds.standsFor ?_ index
      simp [Outline.effort, hreference, hrule, hunfolds.effort]
  | some reference =>
      obtain ⟨other, free, hother, hkind, hplaceholder⟩ := href (by simp [hreference])
      obtain rfl := Option.some.inj (hother.symm.trans hrule)
      have hkind' : language.grammar.unreferenced.kind? other =
          some (.freeWord free.unreferenced) := by
        rw [Grammar.kind?_unreferenced, hkind]
        rfl
      have hstands : (Outline.word mark (.pattern part.placeholder)).StandsFor
          language.grammar.unreferenced root cost other := by
        refine standsFor_word hslot (by simp [hmark]) rfl ?_ ?_ (hg.parseChoices_free hid hkind')
        · rw [hplaceholder]
          exact free.placeholder_isEmpty
        · intro words
          rw [Grammar.derives_free hkind', free.placeholder_unreferenced, hplaceholder]
      rw [growDeferred, if_pos (by simp [hreference])]
      split
      · refine ⟨_, rfl, _, growsTo_deferred hg hother ?_ hstands ?_ index⟩
        · simp only [listNames, hreference]
          exact readsAs_choice_iff.2 (.inr ⟨_, _, rfl, rfl⟩)
        · simp only [listNames, hreference, Outline.effort]
          rw [← nameList, totalEffort_nameList]
          simp
      · have hword : (Outline.word mark (.pattern part.placeholder)).ReadsAs language.grammar
            (.word mark (.pattern part.placeholder)) := rfl
        refine ⟨⟨_, false⟩, rfl, _, growsTo_deferred hg hother hword hstands ?_ index⟩
        simp [Outline.effort, hreference]

/-- A pass over the parts of a sequence, given what it does to each of them. -/
theorem growParts_growsTo {parts plains : List Outline}
    (hreads : List.Forall₂ (ReadsAs language.grammar) parts plains)
    (ih : ∀ part ∈ parts, ∀ plain, part.ReadsAs language.grammar plain →
      plain.Regular language.grammar.unreferenced root → ∀ scope index,
      ∃ growth, language.grow query limit scope index part = some growth ∧
        ∃ plain', language.GrowsTo root cost limit index part plain growth plain')
    (hreg : RegularParts language.grammar.unreferenced root plains) (scope : Option TypeId)
    (index : Int) :
    ∃ grown, language.growParts query limit scope index parts = some grown ∧
      ∃ plains', language.PartsGrowTo root cost limit index parts plains grown plains' := by
  induction hreads generalizing scope index with
  | nil =>
      refine ⟨⟨[], index, false, true⟩, by rw [growParts], [], .nil, .nil, fun _ h => h, le_rfl,
        by simp, ?_, fun _ _ hstart => hstart, by simp [extentAll]⟩
      intro _ hnonneg _
      exact ⟨hnonneg, rfl, by simp [extentAll]⟩
  | @cons part plain parts plains hpart hparts ihparts =>
      by_cases hstop : (limit : Int) ≤ index
      · -- everything from here on is left alone, and the pass knows no more about where it ends
        refine ⟨_, by rw [growParts, if_pos hstop], plain :: plains, .cons hpart hparts, ?_,
          fun _ h => h, le_rfl, by simp, fun _ _ hlt => absurd hlt (by simpa using hstop),
          fun _ _ hstart => hstart.beyond hstop _, fun _ _ _ hlt => absurd hlt (by omega)⟩
        exact List.forall₂_same.2 fun other hother => .refl (hreg.regular other hother)
      · obtain ⟨hregPart, -, hregRest⟩ := hreg
        obtain ⟨head, hhead, plain', hgrows⟩ := ih part (List.mem_cons_self ..) plain hpart hregPart
          (part.scopeAt scope) index
        obtain ⟨rest, hrest, plains', hrestGrows⟩ := ihparts
          (fun other hother => ih other (List.mem_cons_of_mem _ hother)) hregRest
          (part.scopeAt scope) head.index
        have hle := hgrows.effort
        have hle' := hrestGrows.effort
        refine ⟨_, by rw [growParts, if_neg hstop, hhead, Option.bind_some, hrest, Option.map_some],
          plain' :: plains', .cons hgrows.readsAs hrestGrows.readsAs,
          .cons hgrows.follows hrestGrows.follows, ?_, ?_, ?_, ?_, ?_, ?_⟩
        · rintro words ⟨first, last, rfl, hfirst, hlast⟩
          exact ⟨first, last, rfl, hgrows.keeps first hfirst, hrestGrows.keeps last hlast⟩
        · exact Nat.add_le_add hle hle'
        · intro hgrew
          simp only [totalEffort]
          rcases Bool.or_eq_true_iff.1 hgrew with hgrew | hgrew
          · have := hgrows.lighter hgrew
            omega
          · have := hrestGrows.lighter hgrew
            omega
        · intro huniform hnonneg hlt
          obtain ⟨hnonneg', hexp', hends'⟩ := hrestGrows.ends huniform.2 hnonneg hlt
          obtain ⟨hindex, hexp, hends⟩ := hgrows.ends huniform.1 hnonneg' (by
            simp only at hlt
            omega)
          refine ⟨hindex, by simp [allExpanded, hexp, hexp'], ?_⟩
          simp only [extentAll, Int.natCast_add]
          omega
        · intro huniform start hstart
          have hends := hrestGrows.reads huniform.2 _ (hgrows.reads huniform.1 start hstart)
          rwa [Nat.add_assoc] at hends
        · intro huniform hexp hindex hlt
          simp only [allExpanded, Bool.and_eq_true] at hexp
          simp only [extentAll, Int.natCast_add] at hlt ⊢
          have hhead := hgrows.known huniform.1 hexp.1 hindex (by omega)
          have hends := hrestGrows.known huniform.2 hexp.2 (by omega) (by omega)
          omega

/-- A pass over the branches of a choice, given what it does to each of them. -/
theorem growBranches_growsTo {branches plains : List Outline} {scope : Option TypeId} {index : Int}
    (hreads : List.Forall₂ (ReadsAs language.grammar) branches plains)
    (ih : ∀ branch ∈ branches, ∀ plain, branch.ReadsAs language.grammar plain →
      plain.Regular language.grammar.unreferenced root →
      ∃ growth, language.grow query limit scope index branch = some growth ∧
        ∃ plain', language.GrowsTo root cost limit index branch plain growth plain')
    (hreg : RegularBranches language.grammar.unreferenced root plains) :
    ∃ grown, language.growBranches query limit scope index branches = some grown ∧
      ∃ plains', language.BranchesGrowTo root cost limit index branches plains grown plains' := by
  induction hreads with
  | nil =>
      exact ⟨_, by rw [growBranches], [], .nil, .nil, fun _ h => h, le_rfl, by simp,
        fun _ _ _ _ _ _ => ⟨rfl, by simp⟩, by simp, by simp⟩
  | @cons branch plain branches plains hbranch hbranches ihbranches =>
      obtain ⟨head, hhead, plain', hgrows⟩ := ih branch (List.mem_cons_self ..) plain hbranch hreg.1
      obtain ⟨rest, hrest, plains', hrestGrows⟩ := ihbranches
        (fun other hother => ih other (List.mem_cons_of_mem _ hother)) hreg.2
      have hle := hgrows.effort
      have hle' := hrestGrows.effort
      refine ⟨_, by rw [growBranches, hhead, Option.bind_some, hrest, Option.map_some],
        plain' :: plains', .cons hgrows.readsAs hrestGrows.readsAs,
        .cons hgrows.follows hrestGrows.follows, ?_, Nat.add_le_add hle hle', ?_, ?_, ?_, ?_⟩
      · rintro words (hwords | hwords)
        · exact .inl (hgrows.keeps words hwords)
        · exact .inr (hrestGrows.keeps words hwords)
      · intro hgrew
        simp only [List.map_cons, totalEffort]
        rcases Bool.or_eq_true_iff.1 hgrew with hgrew | hgrew
        · have := hgrows.lighter hgrew
          omega
        · have := hrestGrows.lighter hgrew
          omega
      · intro n stop huniform hnonneg hlt hstop
        have hindex := hstop head (List.mem_cons_self ..)
        obtain ⟨hknown, hexp, hends⟩ := hgrows.ends huniform.1 (by omega) (by omega)
        obtain ⟨hexp', -⟩ := hrestGrows.ends n stop huniform.2.2 hnonneg hlt
          fun growth hgrowth => hstop growth (List.mem_cons_of_mem _ hgrowth)
        refine ⟨by simp [allExpanded, hexp, hexp'], fun _ => ⟨hknown, ?_⟩⟩
        rw [← hindex, hends, huniform.2.1]
      · intro n huniform start hstart growth hgrowth
        rcases List.mem_cons.1 hgrowth with rfl | hgrowth
        · rw [← huniform.2.1]
          exact hgrows.reads huniform.1 start hstart
        · exact hrestGrows.reads n huniform.2.2 start hstart growth hgrowth
      · intro n huniform hexp hindex hlt growth hgrowth
        simp only [allExpanded, Bool.and_eq_true] at hexp
        rcases List.mem_cons.1 hgrowth with rfl | hgrowth
        · rw [← huniform.2.1] at hlt ⊢
          exact hgrows.known huniform.1 hexp.1 hindex hlt
        · exact hrestGrows.known n huniform.2.2 hexp.2 hindex hlt growth hgrowth

/-- A pass over a list of names changes none of them. -/
theorem growBranches_nameList (query : Query) (limit : Int) (scope : Option TypeId) (index : Int)
    (placeholder : String) (names : List String) :
    language.growBranches query limit scope index (nameList placeholder names) =
      some ((nameList placeholder names).map fun branch => ⟨branch, advance index 1, false⟩) := by
  rw [growBranches_eq_mapM, mapM_eq_some_iff]
  refine List.forall₂_map_right_iff.2 (List.forall₂_same.2 fun branch hmem => ?_)
  rcases List.mem_cons.1 hmem with rfl | hmem
  · rfl
  · obtain ⟨name, -, rfl⟩ := List.mem_map.1 hmem
    rfl

/-- A pass over a list of names settles its count and ends one place further on. -/
theorem grow_nameList (query : Query) (limit : Int) (scope : Option TypeId) (index : Int)
    {mark : Mark} (hmark : mark.complete = false) (placeholder : String) (names : List String) :
    language.grow query limit scope index (.choice mark (nameList placeholder names)) =
      some ⟨.choice (mark.settle 1) (nameList placeholder names), advance index 1, false⟩ := by
  have hnodes : ((nameList placeholder names).map fun branch =>
      (⟨branch, advance index 1, false⟩ : Growth)).map Growth.node =
        nameList placeholder names := by
    rw [List.map_map]
    exact List.map_id _
  rw [grow, if_neg (by simp [hmark]), growBranches_nameList, Option.map_some, hnodes,
    closeChoice_nameList]
  refine congrArg some ?_
  rw [Growth.mk.injEq]
  refine ⟨rfl, ?_, ?_⟩
  · simp [nameList, agreedIndex]
  · simp

theorem PartsGrowTo.sequence {mark : Mark} {info : SequenceInfo} {parts plains plains' : List Outline}
    {grown : PartsGrowth} {index : Int}
    (hreg : (Outline.sequence mark info plains).Regular language.grammar.unreferenced root)
    (hmark : mark.complete = false)
    (h : language.PartsGrowTo root cost limit index parts plains grown plains') :
    language.GrowsTo root cost limit index (.sequence mark info parts) (.sequence mark info plains)
      ⟨.closeSequence mark info grown.parts grown.complete limit, grown.index, grown.grew⟩
      (.closeSequence mark info plains' grown.complete limit) := by
  have hreads := ReadsAs.closeSequence h.readsAs mark info grown.complete limit
  have hfollows := Follows.closeSequence hreg hmark h.follows grown.complete limit
  obtain ⟨mark', hclose⟩ := closeSequence_eq mark info grown.parts grown.complete limit
  obtain ⟨mark'', hclose'⟩ := closeSequence_eq mark info plains' grown.complete limit
  rw [hclose, hclose'] at hreads
  rw [hclose'] at hfollows
  rw [hclose, hclose']
  refine ⟨hreads, hfollows, h.keeps, h.effort, h.lighter, ?_, ?_, ?_⟩
  · intro huniform
    exact h.ends huniform.2
  · intro huniform
    exact h.reads huniform.2
  · intro huniform
    exact h.known huniform.2

theorem BranchesGrowTo.choice {mark : Mark} {branches plains plains' : List Outline}
    {grown : List Growth} {index : Int}
    (hreg : (Outline.choice mark plains).Regular language.grammar.unreferenced root)
    (hmark : mark.complete = false)
    (h : language.BranchesGrowTo root cost limit index branches plains grown plains') :
    language.GrowsTo root cost limit index (.choice mark branches) (.choice mark plains)
      ⟨.closeChoice mark (grown.map Growth.node), agreedIndex index (grown.map Growth.index),
        grown.any Growth.grew⟩ (.closeChoice mark plains') := by
  have hne : plains' ≠ [] := by
    rintro rfl
    exact hreg.1 (List.forall₂_nil_right_iff.1 h.follows)
  have hsome : FollowsSome language.grammar.unreferenced root cost plains plains' :=
    List.sublistForall₂_iff.2 ⟨plains, h.follows.flip, .refl _⟩
  have hreads := ReadsAs.closeChoice (List.forall₂_map_left_iff.2 h.readsAs) mark
  have hfollows := Follows.closeChoice hmark hne hsome
  obtain ⟨mark', hclose⟩ := closeChoice_eq mark (grown.map Growth.node)
  obtain ⟨mark'', hclose'⟩ := closeChoice_eq mark plains'
  rw [hclose, hclose'] at hreads
  rw [hclose'] at hfollows
  rw [hclose, hclose']
  have hgrownNe : grown ≠ [] := by
    rintro rfl
    exact hne (List.forall₂_nil_left_iff.1 h.readsAs)
  refine ⟨hreads, hfollows, h.keeps, h.effort, h.lighter, ?_, ?_, ?_⟩
  · intro huniform hnonneg hlt
    -- the end is known only if all branches agree on it
    have hstop : ∀ growth ∈ grown, growth.index = agreedIndex index (grown.map Growth.index) := by
      intro growth hgrowth
      have hagreed := @agreedIndex_eq index _ _ (List.mem_map_of_mem (f := Growth.index) hgrowth)
      simp only [hagreed] at hnonneg ⊢
      split at hnonneg
      · next hall => rw [if_pos hall]
      · simp [unknownCount] at hnonneg
    obtain ⟨hexp, hends⟩ := h.ends _ _ huniform.2 hnonneg hlt hstop
    obtain ⟨hindex, hends⟩ := hends hreg.1
    exact ⟨hindex, hexp, hends⟩
  · intro huniform start hstart
    refine Reads.agreedIndex (by simpa using hgrownNe) fun stop hstop => ?_
    obtain ⟨growth, hgrowth, rfl⟩ := List.mem_map.1 hstop
    exact h.reads _ huniform.2 start hstart growth hgrowth
  · intro huniform hexp hindex hlt
    have hall := h.known _ huniform.2 hexp hindex hlt
    obtain ⟨first, hfirst⟩ := List.exists_mem_of_ne_nil _ hgrownNe
    have hagreed := @agreedIndex_eq index _ _ (List.mem_map_of_mem (f := Growth.index) hfirst)
    simp only [hagreed]
    rw [if_pos]
    · exact hall first hfirst
    · refine List.all_eq_true.2 fun stop hstop => ?_
      obtain ⟨growth, hgrowth, rfl⟩ := List.mem_map.1 hstop
      rw [hall growth hgrowth, hall first hfirst]
      exact beq_self_eq_true _

/-- A pass over an outline with a regular plain reading. -/
theorem grow_growsTo (query : Query) (limit : Nat)
    (hg : language.grammar.unreferenced.PositionDetermined root)
    (hprice : language.grammar.unreferenced.Priced root cost) {outline plain : Outline}
    (hreads : outline.ReadsAs language.grammar plain)
    (hreg : plain.Regular language.grammar.unreferenced root) (scope : Option TypeId)
    (index : Int) :
    ∃ growth, language.grow query limit scope index outline = some growth ∧
      ∃ plain', language.GrowsTo root cost limit index outline plain growth plain' := by
  induction outline generalizing plain scope index with
  | blank | scope => exact hreads.elim
  | word mark w =>
      obtain rfl := hreads
      refine ⟨_, by rw [grow], _, growsTo_same rfl hreg rfl ?_⟩
      intro huniform
      split
      · next hmark => exact Mark.endIndex_eq (huniform hmark) index
      · rfl
  | deferred mark part =>
      have hmark : mark.complete = false := by
        obtain ⟨rfl, -⟩ := hreads
        exact hreg.2.1
      obtain ⟨unfolded, hunfolded, hgrows⟩ := growDeferred_growsTo hg hprice hreads hreg scope index
      exact ⟨_, by rw [grow, if_neg (by simp [hmark]), hunfolded, Option.map_some], hgrows⟩
  | sequence mark info parts ih =>
      obtain ⟨plains, rfl, hparts⟩ := readsAs_sequence_iff.1 hreads
      cases hmark : mark.complete with
      | true =>
          refine ⟨_, by rw [grow, if_pos hmark], _, growsTo_same hreads hreg (hreg.2.2.1 hmark) ?_⟩
          intro huniform
          exact Mark.endIndex_eq (huniform.1 hmark) index
      | false =>
          obtain ⟨grown, hgrown, plains', hgrows⟩ := growParts_growsTo hparts
            (fun part hmem plain hpart hregPart => ih part hmem hpart hregPart) hreg.2.2.2 scope index
          exact ⟨_, by rw [grow, if_neg (by simp [hmark]), hgrown, Option.map_some], _,
            hgrows.sequence hreg hmark⟩
  | choice mark branches ih =>
      rcases readsAs_choice_iff.1 hreads with
        ⟨plains, rfl, hbranches⟩ | ⟨placeholder, names, rfl, rfl⟩
      · cases hmark : mark.complete with
        | true =>
            refine ⟨_, by rw [grow, if_pos hmark], _,
              growsTo_same hreads hreg (hreg.2.1 hmark) ?_⟩
            intro huniform
            exact Mark.endIndex_eq (huniform.1 hmark) index
        | false =>
            obtain ⟨grown, hgrown, plains', hgrows⟩ := growBranches_growsTo hbranches
              (fun branch hmem plain hbranch hregBranch =>
                ih branch hmem hbranch hregBranch scope index) hreg.2.2
            exact ⟨_, by rw [grow, if_neg (by simp [hmark]), hgrown, Option.map_some], _,
              hgrows.choice hreg hmark⟩
      · cases hmark : mark.complete with
        | true =>
            refine ⟨_, by rw [grow, if_pos hmark], _, growsTo_same hreads hreg rfl ?_⟩
            intro huniform
            exact Mark.endIndex_eq (huniform hmark) index
        | false =>
            refine ⟨_, grow_nameList query limit scope index hmark placeholder names,
              .word (mark.settle 1) (.pattern placeholder), ?_, follows_settle hreg,
              fun _ hwords => hwords, le_rfl, by simp, ?_, fun _ _ hstart => hstart.advance 1,
              fun _ _ hindex _ => advance_of_nonneg hindex (by omega)⟩
            · exact readsAs_choice_iff.2 (.inr ⟨_, _, rfl, rfl⟩)
            · intro _ hnonneg _
              obtain ⟨hindex, hone⟩ := nonneg_of_advance_nonneg hnonneg
              exact ⟨hindex, rfl, advance_of_nonneg hindex hone⟩

end Language

/-! ### The passes -/

/-- The outline has a plain reading that is regular. -/
def Outline.Readable (grammar : Grammar) (root : RuleId) (outline : Outline) : Prop :=
  ∃ plain, outline.ReadsAs grammar plain ∧ plain.Regular grammar.unreferenced root

/-- The branches of a choice are readable, unless they are a list of names. -/
theorem Outline.Readable.branches {grammar : Grammar} {root : RuleId} {mark : Mark}
    {branches : List Outline} (h : (Outline.choice mark branches).Readable grammar root) :
    (∀ branch ∈ branches, branch.Readable grammar root) ∨
      ∃ placeholder names, branches = nameList placeholder names := by
  obtain ⟨plain, hreads, hreg⟩ := h
  rcases readsAs_choice_iff.1 hreads with
    ⟨plains, rfl, hbranches⟩ | ⟨placeholder, names, rfl, rfl⟩
  · left
    intro branch hmem
    obtain ⟨plain, hplain, hbranch⟩ := exists_right_of_forall₂ hbranches branch hmem
    exact ⟨plain, hbranch, regularBranches_iff.1 hreg.2.2 plain hplain⟩
  · exact .inr ⟨placeholder, names, rfl⟩

theorem Grammar.width_unreferenced (grammar : Grammar) :
    grammar.unreferenced.width = grammar.width := by
  simp only [width, unreferenced, Array.toList_map, List.map_map]
  congr 2
  funext rule
  exact congrArg List.length rule.kind.references_unreferenced

namespace Language

open Outline

variable {language : Language} {root : RuleId} {cost : RuleId → Nat} {query : Query}

section PositionDetermined

variable (hg : language.grammar.unreferenced.PositionDetermined root)
include hg

/-- The outcome of a pass is the one described. -/
theorem growsTo_of_grow {limit : Nat} {scope : Option TypeId} {index : Int} {outline plain : Outline}
    (hreads : outline.ReadsAs language.grammar plain)
    (hreg : plain.Regular language.grammar.unreferenced root) {growth : Growth}
    (hgrowth : language.grow query limit scope index outline = some growth) :
    ∃ plain', language.GrowsTo root language.grammar.unreferenced.price limit index outline plain
      growth plain' := by
  obtain ⟨growth', hgrowth', plain', hgrows⟩ := grow_growsTo query limit hg hg.priced hreads hreg
    scope index
  obtain rfl := Option.some.inj (hgrowth.symm.trans hgrowth')
  exact ⟨plain', hgrows⟩

theorem readable_grow {limit : Nat} {scope : Option TypeId} {index : Int} {outline : Outline}
    (h : outline.Readable language.grammar root) {growth : Growth}
    (hgrowth : language.grow query limit scope index outline = some growth) :
    growth.node.Readable language.grammar root := by
  obtain ⟨plain, hreads, hreg⟩ := h
  obtain ⟨plain', hgrows⟩ := growsTo_of_grow hg hreads hreg hgrowth
  exact ⟨plain', hgrows.readsAs, hgrows.follows.regular⟩

theorem readable_retain {start : Nat} {outline : Outline}
    (h : outline.Readable language.grammar root)
    (hstays : (outline.retain query start).stays = true) :
    (outline.retain query start).value.Readable language.grammar root := by
  obtain ⟨plain, hreads, hreg⟩ := h
  obtain ⟨hsame, hvalue⟩ := hreads.retain query start
  have hprunes := retain_prunes language.grammar.unreferenced.price query hg hreg start
  exact ⟨_, hvalue, (hprunes.follows (hsame.trans hstays)).regular⟩

/-- The passes have an outcome if there are more of them than the effort for the outline. -/
theorem exists_settleWithin (limit : Nat) (scope : Option TypeId) {passes : Nat} {outline : Outline}
    (h : outline.Readable language.grammar root)
    (heffort : outline.effort language.grammar.unreferenced.price < passes) :
    ∃ outcome, language.settleWithin query scope limit passes outline = some outcome := by
  induction passes generalizing outline with
  | zero => omega
  | succ passes ih =>
      obtain ⟨plain, hreads, hreg⟩ := h
      obtain ⟨growth, hgrowth, plain', hgrows⟩ := grow_growsTo query limit hg hg.priced hreads hreg
        scope 0
      have hgrown : growth.node.Readable language.grammar root :=
        ⟨plain', hgrows.readsAs, hgrows.follows.regular⟩
      rw [settleWithin, hgrowth, Option.bind_some, prune]
      by_cases hstays : (growth.node.retain query 0).stays = true
      · simp only [hstays, if_true]
        cases hgrew : growth.grew with
        | true =>
            -- each further pass is paid for by the effort it takes off
            have hlighter := hgrows.lighter hgrew
            have hle := effort_retain language.grammar.unreferenced.price query growth.node 0
            exact ih (readable_retain hg hgrown hstays) (by omega)
        | false => exact ⟨_, rfl⟩
      · simp only [hstays]
        exact ⟨none, rfl⟩

/-! ### The seed -/

/-- The seed outside all blocks is what the root is unfolded into, pruned. -/
theorem seed_unfoldsTo (hroot : language.grammar.root = some root) (query : Query)
    (scope : Option TypeId) :
    ∃ unfolded, language.unfold scope true (some root) (.blank {}) = some unfolded ∧
      (∃ plain, language.UnfoldsTo root language.grammar.unreferenced.price root unfolded plain) ∧
      language.seed query scope [] =
        some (.choice {} (unfolded.node.prune query 0).toList) := by
  obtain ⟨unfolded, hunfolded, hunfolds⟩ :=
    unfold_unfoldsTo hg hg.priced .refl scope true (fillable_blank Grammar.plainSlot_none)
  obtain ⟨kind, hkind, hplain⟩ := hg.plain root .refl
  have hkeyword : language.grammar.endKeyword? root = none := by
    rw [← Grammar.endKeyword?_unreferenced]
    exact Grammar.endKeyword?_of_isPlain hkind hplain
  refine ⟨unfolded, hunfolded, hunfolds, ?_⟩
  simp [seed, seedBlocks, hroot, seedBranches, blockNode, hunfolded, isTransparent, hkeyword]

/-- The seed outside all blocks is readable, unless the typed words rule everything out. -/
theorem exists_seed (hroot : language.grammar.root = some root) (query : Query)
    (scope : Option TypeId) :
    ∃ seed, language.seed query scope [] = some seed ∧
      (seed.Readable language.grammar root ∧ seed.effort language.grammar.unreferenced.price <
        2 * language.grammar.unreferenced.price root ∨ seed = .choice {} []) := by
  obtain ⟨unfolded, -, ⟨plain, hreads, hstands, heffort⟩, hseed⟩ :=
    seed_unfoldsTo hg hroot query scope
  refine ⟨_, hseed, ?_⟩
  rw [prune]
  by_cases hstays : (unfolded.node.retain query 0).stays = true
  · left
    simp only [hstays, if_true, Option.toList_some]
    obtain ⟨plain', hreads', hreg⟩ := readable_retain hg ⟨plain, hreads, hstands.regular⟩ hstays
    have hle := effort_retain language.grammar.unreferenced.price query unfolded.node 0
    refine ⟨⟨.choice {} [plain'], ?_, ?_⟩, ?_⟩
    · exact readsAs_choice_iff.2 (.inl ⟨_, rfl, .cons hreads' .nil⟩)
    · exact ⟨by simp, by simp, hreg, trivial⟩
    · simp only [Outline.effort, totalEffort]
      omega
  · right
    simp [hstays]

theorem two_mul_price_le_passBudget (query : Query) (limit : Int) :
    2 * language.grammar.unreferenced.price root ≤ language.passBudget query [] limit := by
  have hrank := hg.rank_lt_size .refl
  rw [Grammar.size_unreferenced] at hrank
  have hprice : language.grammar.unreferenced.price root ≤
      (language.grammar.width + 2) ^ (language.grammar.rules.size + 2) := by
    rw [Grammar.price, Grammar.width_unreferenced]
    exact (Nat.pow_le_pow_left (by omega) _).trans (Nat.pow_le_pow_right (by omega) (by omega))
  rw [passBudget]
  simp only [List.length_nil, Nat.pow_eq]
  omega

/-- A request outside all blocks has an outcome. -/
theorem exists_settle (hroot : language.grammar.root = some root) (hquery : query.words ≠ [])
    (scope : Option TypeId) (limit : Nat) :
    ∃ outcome, language.settle query scope [] limit = some outcome := by
  obtain ⟨seed, hseed, ⟨hseedReadable, heffort⟩ | rfl⟩ := exists_seed hg hroot query scope
  · have hbudget := two_mul_price_le_passBudget hg query limit
    rw [settle, hseed, Option.bind_some]
    exact exists_settleWithin hg limit scope hseedReadable (by omega)
  · have hbudget := two_mul_price_le_passBudget hg query limit
    have hprice : 0 < language.grammar.unreferenced.price root := Nat.pow_pos (by omega)
    obtain ⟨passes, hpasses⟩ : ∃ passes, language.passBudget query [] limit = passes + 1 :=
      ⟨language.passBudget query [] limit - 1, by omega⟩
    rw [settle, hseed, Option.bind_some, hpasses]
    exact ⟨none, settleWithin_choice_nil hquery scope {} rfl limit passes⟩

end PositionDetermined

end Language

end Typeahead
