/-
Two runs of the completer in lockstep.

Take two languages that differ in the order and the repetition of branches, and in that the second one
knows more names.  Both are unfolded into similar outlines, every pass keeps them similar, and both
stop in the same pass.  So whatever is read off the outlines differs only as far as similar outlines
do.

Main definitions:

* `Typeahead.Grammar.SameBranches` — grammars that differ in the order and repetition of branches;
* `Typeahead.Language.Extends` — languages that differ in this, and in further names;
* `Typeahead.Language.suggestWithin` — the suggestions after a bounded number of passes.

Main results:

* `Typeahead.Language.Extends.unfoldWithin`, `Typeahead.Language.Extends.grow` — what a step comes to;
* `Typeahead.Language.Extends.settleWithin` — what a run comes to;
* `Typeahead.Language.Extends.suggestWithin` — what the two answers are.
-/

import Typeahead.Proofs.Similar
import Typeahead.Proofs.Suggestions

set_option relaxedAutoImplicit false
set_option autoImplicit false

namespace Typeahead

/-! ### Grammars with the same branches -/

/-- The two rules are the same, up to the order and the repetition of branches. -/
inductive RuleKind.SameBranches : RuleKind → RuleKind → Prop
  | refl (kind : RuleKind) : SameBranches kind kind
  | choice {branches branches' : List RuleId} : (∀ id, id ∈ branches ↔ id ∈ branches') →
      SameBranches (.choice branches) (.choice branches')

/-- The two grammars differ in the order and the repetition of branches only. -/
structure Grammar.SameBranches (grammar grammar' : Grammar) : Prop where
  root : grammar'.root = grammar.root
  rules : List.Forall₂ (fun rule rule' : Rule =>
    rule'.context = rule.context ∧ rule.kind.SameBranches rule'.kind)
    grammar.rules.toList grammar'.rules.toList

theorem rel_getElem? {α β : Type} {R : α → β → Prop} {xs : List α} {ys : List β}
    (h : List.Forall₂ R xs ys) (i : Nat) : Option.Rel R xs[i]? ys[i]? := by
  induction h generalizing i with
  | nil => exact .none
  | cons hxy _ ih =>
      cases i with
      | zero => exact .some hxy
      | succ i => exact ih i

namespace Grammar

variable {grammar grammar' : Grammar}

theorem sameBranches_refl (grammar : Grammar) : grammar.SameBranches grammar where
  root := rfl
  rules := List.forall₂_same.2 fun rule _ => ⟨rfl, .refl rule.kind⟩

variable (h : grammar.SameBranches grammar')
include h

theorem SameBranches.size : grammar'.rules.size = grammar.rules.size := by
  rw [← Array.length_toList, ← Array.length_toList, h.rules.length_eq]

theorem SameBranches.kind? (id : RuleId) :
    Option.Rel RuleKind.SameBranches (grammar.kind? id) (grammar'.kind? id) := by
  have hrule := rel_getElem? h.rules id.index
  rw [Array.getElem?_toList, Array.getElem?_toList] at hrule
  exact rel_map hrule fun _ _ => And.right

/-- The rules at a place are the same, or choices with the same branches. -/
theorem SameBranches.kind?_eq_or (id : RuleId) :
    grammar'.kind? id = grammar.kind? id ∨ ∃ branches branches',
      grammar.kind? id = some (.choice branches) ∧ grammar'.kind? id = some (.choice branches') ∧
        ∀ child, child ∈ branches ↔ child ∈ branches' := by
  have hkind := h.kind? id
  generalize grammar.kind? id = kind, grammar'.kind? id = kind' at hkind
  cases hkind with
  | none => exact .inl rfl
  | some hsame =>
      cases hsame with
      | refl kind => exact .inl rfl
      | choice hmem => exact .inr ⟨_, _, rfl, rfl, hmem⟩

theorem SameBranches.displayName (id : RuleId) :
    grammar'.displayName id = grammar.displayName id := by
  have hrule := rel_getElem? h.rules id.index
  rw [Array.getElem?_toList, Array.getElem?_toList] at hrule
  unfold Grammar.displayName
  generalize grammar.rules[id.index]? = rule, grammar'.rules[id.index]? = rule' at hrule
  cases hrule with
  | none => rfl
  | some hsame => simp only [Rule.displayName, hsame.1]

theorem SameBranches.endKeyword? (id : RuleId) :
    grammar'.endKeyword? id = grammar.endKeyword? id := by
  unfold Grammar.endKeyword?
  rcases h.kind?_eq_or id with heq | ⟨branches, branches', hkind, hkind', -⟩
  · rw [heq]
  · rw [hkind, hkind']

theorem SameBranches.loadFrom? (slot : Slot) : grammar'.loadFrom? slot = grammar.loadFrom? slot := by
  unfold Grammar.loadFrom? Grammar.followingLoad?
  rcases h.kind?_eq_or slot.sequence with heq | ⟨branches, branches', hkind, hkind', -⟩
  · rw [heq]
    congr 1
    split
    · congr 1
      funext sibling
      rcases h.kind?_eq_or sibling with heq | ⟨branches, branches', hkind, hkind', -⟩
      · rw [heq]
      · rw [hkind, hkind']
    · rfl
  · rw [hkind, hkind']

theorem SameBranches.closing? (slot : Option Slot) :
    grammar'.closing? slot = grammar.closing? slot := by
  have hkeyword : grammar'.endKeyword? = grammar.endKeyword? := funext h.endKeyword?
  cases slot with
  | none => rfl
  | some slot =>
      simp only [Grammar.closing?, hkeyword]
      rcases h.kind?_eq_or slot.sequence with heq | ⟨branches, branches', hkind, hkind', -⟩
      · rw [heq]
      · rw [hkind, hkind']
        cases slot.index <;> rfl

theorem SameBranches.fillFree (id : RuleId) (free : FreeWord) (node : Outline) :
    node.fillFree grammar' id free = node.fillFree grammar id free := by
  have hload : grammar'.loadFrom? = grammar.loadFrom? := funext h.loadFrom?
  unfold Outline.fillFree Outline.tagByLoad
  rw [hload]

theorem SameBranches.taggedFree (id : RuleId) (free : FreeWord) (node : Outline) :
    node.taggedFree grammar' id free = node.taggedFree grammar id free := by
  have hload : grammar'.loadFrom? = grammar.loadFrom? := funext h.loadFrom?
  unfold Outline.taggedFree Outline.tagByLoad
  rw [hload]

end Grammar

/-! ### Languages with further names -/

/-- The second list has the names of the first one and some of the extra names. -/
structure Adds (extra : String → Prop) (names names' : List String) : Prop where
  left : ∀ name ∈ names, name ∈ names'
  right : ∀ name ∈ names', name ∈ names ∨ extra name

theorem Adds.refl {extra : String → Prop} (names : List String) : Adds extra names names where
  left _ hname := hname
  right _ hname := .inl hname

/-- The second language has the same branches and knows the same names and some extra ones. -/
structure Language.Extends (extra : String → Prop) (language language' : Language) : Prop where
  grammar : language.grammar.SameBranches language'.grammar
  types : language'.types = language.types
  settings : language'.settings = language.settings
  candidates : ∀ scope reference,
    Adds extra (language.candidates scope reference) (language'.candidates scope reference)

/-- What unfolding in the two languages comes to. -/
structure Unfolded.Similar (extra : String → Prop) (unfolded unfolded' : Unfolded) : Prop where
  node : unfolded.node.Similar extra unfolded'.node
  grew : unfolded'.grew = unfolded.grew

/-- What a pass in the two languages comes to. -/
structure Growth.Similar (extra : String → Prop) (growth growth' : Growth) : Prop where
  node : growth.node.Similar extra growth'.node
  index : growth'.index = growth.index
  grew : growth'.grew = growth.grew

/-- What a pass over a branch comes to, if it is one beside which a name may be listed. -/
structure Growth.Covers (extra : String → Prop) (growth growth' : Growth) : Prop where
  node : growth.node.Covers extra growth'.node
  index : growth'.index = growth.index
  grew : growth'.grew = growth.grew

/-- What a pass over the parts of a sequence comes to. -/
structure PartsGrowth.Similar (extra : String → Prop) (grown grown' : PartsGrowth) : Prop where
  parts : List.Forall₂ (Outline.Similar extra) grown.parts grown'.parts
  index : grown'.index = grown.index
  grew : grown'.grew = grown.grew
  complete : grown'.complete = grown.complete

/-- The outcomes of a list of steps that are matched with the steps of another list. -/
theorem rel_mapM {α β γ δ : Type} {f : α → Option γ} {g : β → Option δ} {S T : γ → δ → Prop}
    {xs : List α} {ys : List β}
    (h : Matches (fun x y => Option.Rel S (f x) (g y)) (fun x y => Option.Rel T (f x) (g y)) xs ys) :
    Option.Rel (Matches S T) (xs.mapM f) (ys.mapM g) := by
  cases hf : xs.mapM f with
  | some as =>
      have has := mapM_eq_some_iff.1 hf
      -- every step of the second list is matched with one of the first, which has an outcome
      have hsteps : ∀ y ∈ ys, ∃ b, g y = some b ∧ ∃ a ∈ as, T a b := by
        intro y hy
        obtain ⟨x, hx, hrel⟩ := h.right y hy
        obtain ⟨a, ha, hfx⟩ := exists_right_of_forall₂ has x hx
        rw [hfx] at hrel
        cases hg : g y with
        | none =>
            rw [hg] at hrel
            cases hrel
        | some b =>
            rw [hg] at hrel
            cases hrel with
            | some hab => exact ⟨b, rfl, a, ha, hab⟩
      obtain ⟨bs, hg, hbs⟩ := exists_mapM_eq_some hsteps
      rw [hg]
      refine .some ⟨?_, ?_⟩
      · intro a ha
        obtain ⟨x, hx, hfx⟩ := exists_left_of_forall₂ has a ha
        obtain ⟨y, hy, hrel⟩ := h.left x hx
        obtain ⟨b, hb, hgy⟩ := exists_right_of_forall₂ (mapM_eq_some_iff.1 hg) y hy
        rw [hfx, hgy] at hrel
        cases hrel with
        | some hab => exact ⟨b, hb, hab⟩
      · intro b hb
        obtain ⟨y, -, hy⟩ := exists_left_of_forall₂ hbs b hb
        exact hy
  | none =>
      cases hg : ys.mapM g with
      | none => exact .none
      | some bs =>
          -- the first list cannot fail if the second one does not
          have hsteps : ∀ x ∈ xs, ∃ a, f x = some a ∧ True := by
            intro x hx
            obtain ⟨y, hy, hrel⟩ := h.left x hx
            obtain ⟨b, hb, hgy⟩ := exists_right_of_forall₂ (mapM_eq_some_iff.1 hg) y hy
            rw [hgy] at hrel
            cases hfx : f x with
            | none =>
                rw [hfx] at hrel
                cases hrel
            | some a => exact ⟨a, rfl, trivial⟩
          obtain ⟨as, has, -⟩ := exists_mapM_eq_some hsteps
          rw [has] at hf
          cases hf

/-! ### Closing nodes -/

/-- The agreed index is the one of a list in which no other occurs. -/
theorem agreedIndex_eq {start index : Int} {indices : List Int} (hmem : index ∈ indices) :
    agreedIndex start indices =
      if indices.all (· == index) then index else unknownCount := by
  cases indices with
  | nil => cases hmem
  | cons first rest =>
      rw [agreedIndex]
      by_cases hall : rest.all (· == first) = true
      · have hfirst : index = first := by
          rcases List.mem_cons.1 hmem with rfl | hmem
          · rfl
          · exact eq_of_beq (List.all_eq_true.1 hall index hmem)
        subst hfirst
        simp [hall]
      · rw [if_neg hall, if_neg]
        intro hindex
        rw [List.all_cons, Bool.and_eq_true, beq_iff_eq] at hindex
        rw [hindex.1] at hall
        exact hall hindex.2

/-- The agreed index depends on which indices there are only. -/
theorem agreedIndex_congr {start : Int} {indices indices' : List Int}
    (h : ∀ index, index ∈ indices' ↔ index ∈ indices) :
    agreedIndex start indices' = agreedIndex start indices := by
  cases indices with
  | nil =>
      obtain rfl : indices' = [] :=
        List.eq_nil_iff_forall_not_mem.2 fun index hmem => nomatch (h index).1 hmem
      rfl
  | cons first rest =>
      have hmem : first ∈ first :: rest := List.mem_cons_self ..
      have hall : indices'.all (· == first) = (first :: rest).all (· == first) := by
        rw [Bool.eq_iff_iff, List.all_eq_true, List.all_eq_true]
        exact forall_congr' fun index => by rw [h index]
      rw [agreedIndex_eq ((h first).2 hmem), agreedIndex_eq hmem, hall]

namespace Outline

variable {extra : String → Prop}

theorem Similar.closeSequence {mark : Mark} (hmark : mark.Honest) (info : SequenceInfo)
    {parts parts' : List Outline} (hparts : List.Forall₂ (Similar extra) parts parts')
    (complete : Bool) (limit : Int) :
    (closeSequence mark info parts complete limit).Similar extra
      (closeSequence mark info parts' complete limit) := by
  have hsum : sumCounts parts' = sumCounts parts :=
    sumCounts_congr (hparts.imp fun _ _ hpart => hpart.count)
  simp only [Outline.closeSequence, hsum, ← hparts.length_eq]
  split
  · next hclosed =>
      simp only [Bool.and_eq_true, decide_eq_true_eq] at hclosed
      exact similar_sequence_iff.2 ⟨fun _ => hclosed.2, parts', rfl, hparts⟩
  · exact similar_sequence_iff.2 ⟨hmark, parts', rfl, hparts⟩

theorem Covers.mark_complete {branch branch' : Outline} (h : branch.Covers extra branch') :
    branch'.mark.complete = branch.mark.complete := by
  rcases h with hsimilar | ⟨⟨placeholder, rfl⟩, name, -, rfl⟩
  · rw [hsimilar.mark]
  · rfl

theorem Similar.closeChoice {mark : Mark} (hmark : mark.Honest) {branches branches' : List Outline}
    (h : SimilarBranches extra branches branches') :
    (closeChoice mark branches).Similar extra (closeChoice mark branches') := by
  have hall : (branches'.all fun branch => branch.mark.complete) =
      branches.all fun branch => branch.mark.complete := by
    rw [Bool.eq_iff_iff, List.all_eq_true, List.all_eq_true]
    constructor
    · intro hcomplete branch hmem
      obtain ⟨branch', hmem', hbranch⟩ := h.left branch hmem
      rw [← hbranch.mark]
      exact hcomplete branch' hmem'
    · intro hcomplete branch' hmem'
      obtain ⟨branch, hmem, hbranch⟩ := h.right branch' hmem'
      rw [hbranch.mark_complete]
      exact hcomplete branch hmem
  simp only [Outline.closeChoice, hall, h.maxCounts]
  split
  · next hcomplete =>
      refine similar_choice_iff.2 ⟨fun _ => maxCounts_nonneg ?_, branches', rfl, h⟩
      intro branch hmem
      obtain ⟨branch', -, hbranch⟩ := h.left branch hmem
      have hmarked := List.all_eq_true.1 hcomplete branch hmem
      rw [count_of_complete hmarked]
      exact hbranch.honest hmarked
  · exact similar_choice_iff.2 ⟨hmark, branches', rfl, h⟩

end Outline

theorem Language.growBranches_eq_mapM (language : Language) (query : Query) (limit : Int)
    (scope : Option TypeId) (index : Int) (branches : List Outline) :
    language.growBranches query limit scope index branches =
      branches.mapM (language.grow query limit scope index) := by
  induction branches with
  | nil => rfl
  | cons branch branches ih =>
      rw [growBranches, List.mapM_cons, ih]
      simp only [Option.bind_eq_bind, Option.pure_def, Option.map_eq_bind]
      rfl

namespace Language.Extends

open Outline

variable {extra : String → Prop} {language language' : Language}

/-- The branches of a choice are unfolded into similar ones, whatever their order. -/
theorem mapM_unfoldWithin {fuel : Nat} {scope : Option TypeId}
    (ih : ∀ openBlock rule (node : Outline), node.IsOpen →
      Option.Rel (Unfolded.Similar extra) (language.unfoldWithin fuel scope openBlock rule node)
        (language'.unfoldWithin fuel scope openBlock rule node))
    {branches branches' : List RuleId} (hmem : ∀ child, child ∈ branches ↔ child ∈ branches')
    {node : Outline} (hnode : node.Similar extra node) :
    Option.Rel (Unfolded.Similar extra)
      ((branches.mapM fun branch =>
        language.unfoldWithin fuel scope false (some branch) (.blank {})).map fun unfolded =>
          settled (.choice node.mark (unfolded.map Unfolded.node)) false)
      ((branches'.mapM fun branch =>
        language'.unfoldWithin fuel scope false (some branch) (.blank {})).map fun unfolded =>
          settled (.choice node.mark (unfolded.map Unfolded.node)) false) := by
  have hmatches : Matches (fun child child' => Option.Rel (Unfolded.Similar extra)
      (language.unfoldWithin fuel scope false (some child) (.blank {}))
      (language'.unfoldWithin fuel scope false (some child') (.blank {})))
      (fun child child' => Option.Rel (Unfolded.Similar extra)
      (language.unfoldWithin fuel scope false (some child) (.blank {}))
      (language'.unfoldWithin fuel scope false (some child') (.blank {}))) branches branches' :=
    ⟨fun child hchild => ⟨child, (hmem child).1 hchild, ih _ _ _ (isOpen_blank none)⟩,
      fun child hchild => ⟨child, (hmem child).2 hchild, ih _ _ _ (isOpen_blank none)⟩⟩
  refine rel_map (rel_mapM hmatches) ?_
  intro unfolded unfolded' hunfolded
  have hnodes : SimilarBranches extra (unfolded.map Unfolded.node) (unfolded'.map Unfolded.node) :=
    hunfolded.map (fun _ _ hentry => hentry.node) fun _ _ hentry => .inl hentry.node
  exact ⟨similar_choice_iff.2 ⟨hnode.honest, _, rfl, hnodes⟩, rfl⟩

/-- A pass over similar parts, one after another. -/
theorem growParts {query : Query} {limit : Int} {parts parts' : List Outline}
    (hparts : List.Forall₂ (Similar extra) parts parts')
    (ih : ∀ part ∈ parts, ∀ part', part.Similar extra part' → ∀ scope index,
      Option.Rel (Growth.Similar extra) (language.grow query limit scope index part)
        (language'.grow query limit scope index part'))
    (scope : Option TypeId) (index : Int) :
    Option.Rel (PartsGrowth.Similar extra) (language.growParts query limit scope index parts)
      (language'.growParts query limit scope index parts') := by
  induction hparts generalizing scope index with
  | nil => exact .some ⟨.nil, rfl, rfl, rfl⟩
  | @cons part part' parts parts' hpart hrest ihparts =>
      simp only [Language.growParts, hpart.scopeAt]
      split
      · exact .some ⟨.cons hpart hrest, rfl, rfl, rfl⟩
      · refine rel_bind (ih part (List.mem_cons_self ..) part' hpart _ _) ?_
        intro head head' hhead
        rw [hhead.index]
        refine rel_map (ihparts (fun other hmem => ih other (List.mem_cons_of_mem _ hmem)) _ _) ?_
        intro rest rest' hrest
        exact
          { parts := .cons hhead.node hrest.parts
            index := hrest.index
            grew := by simp only [hhead.grew, hrest.grew]
            complete := by simp only [hhead.node.mark, hrest.complete] }

/-- A placeholder and a name listed beside it are both left alone. -/
theorem grow_covers {query : Query} {limit : Int} {scope : Option TypeId} {index : Int}
    {branch branch' : Outline} (hbranch : branch.Covers extra branch')
    (ih : branch.Similar extra branch' →
      Option.Rel (Growth.Similar extra) (language.grow query limit scope index branch)
        (language'.grow query limit scope index branch')) :
    Option.Rel (Growth.Covers extra) (language.grow query limit scope index branch)
      (language'.grow query limit scope index branch') := by
  rcases hbranch with hsimilar | hname
  · refine rel_imp (ih hsimilar) ?_
    intro growth growth' hgrowth
    exact ⟨.inl hgrowth.node, hgrowth.index, hgrowth.grew⟩
  · obtain ⟨⟨placeholder, rfl⟩, name, hextra, rfl⟩ := hname
    exact .some ⟨.inr ⟨⟨placeholder, rfl⟩, name, hextra, rfl⟩, rfl, rfl⟩

/-- A pass over similar branches, in whatever order. -/
theorem growBranches {query : Query} {limit : Int} {scope : Option TypeId} {index : Int}
    {branches branches' : List Outline} (hbranches : SimilarBranches extra branches branches')
    (ih : ∀ branch ∈ branches, ∀ branch', branch.Similar extra branch' →
      Option.Rel (Growth.Similar extra) (language.grow query limit scope index branch)
        (language'.grow query limit scope index branch')) :
    Option.Rel (Matches (Growth.Similar extra) (Growth.Covers extra))
      (language.growBranches query limit scope index branches)
      (language'.growBranches query limit scope index branches') := by
  rw [growBranches_eq_mapM, growBranches_eq_mapM]
  refine rel_mapM ⟨?_, ?_⟩
  · intro branch hmem
    obtain ⟨branch', hmem', hbranch⟩ := hbranches.left branch hmem
    exact ⟨branch', hmem', ih branch hmem branch' hbranch⟩
  · intro branch' hmem'
    obtain ⟨branch, hmem, hbranch⟩ := hbranches.right branch' hmem'
    exact ⟨branch, hmem, grow_covers hbranch (ih branch hmem branch')⟩

variable (h : language.Extends extra language')
include h

theorem unfoldWithin (fuel : Nat) (scope : Option TypeId) (openBlock : Bool) (rule : Option RuleId)
    (node : Outline) (hnode : node.IsOpen) :
    Option.Rel (Unfolded.Similar extra) (language.unfoldWithin fuel scope openBlock rule node)
      (language'.unfoldWithin fuel scope openBlock rule node) := by
  induction fuel generalizing openBlock rule node with
  | zero => exact .none
  | succ fuel ih =>
      have hself : node.Similar extra node := similar_self_of_fresh hnode.fresh
      have hsettled : ∀ (node : Outline) (grew : Bool), node.Everywhere Fresh →
          Option.Rel (Unfolded.Similar extra) (some (settled node grew)) (some (settled node grew)) :=
        fun node grew hfresh => .some ⟨similar_self_of_fresh hfresh, rfl⟩
      cases rule with
      | none => exact .some ⟨hself, rfl⟩
      | some id =>
          simp only [Language.unfoldWithin, h.grammar.displayName, h.grammar.fillFree,
            h.grammar.taggedFree, h.types, h.settings]
          rcases h.grammar.kind?_eq_or id with heq | ⟨branches, branches', hkind, hkind', hmem⟩
          · rw [heq]
            cases language.grammar.kind? id with
            | none => exact .some ⟨hself, rfl⟩
            | some kind =>
                cases kind with
                | leaf leaf => exact hsettled _ _ (fill_fresh _ _)
                | freeWord free => exact hsettled _ _ (hnode.fillFree ..)
                | sequence children singleToken isError =>
                    simp only
                    split
                    · exact hsettled _ _ hnode.fresh
                    · cases children with
                      | nil => exact hsettled _ _ (hnode.sequence _ trivial)
                      | cons first rest =>
                          refine rel_map (ih false (some first) _ (isOpen_blank _)) ?_
                          intro head head' hhead
                          refine ⟨similar_sequence_iff.2 ⟨hself.honest, _, rfl, .cons hhead.node ?_⟩, rfl⟩
                          refine List.forall₂_same.2 ?_
                          intro part hpart
                          exact similar_self_of_fresh
                            (allEverywhere_iff.1 (deferRest_fresh id rest) part hpart)
                | choice branches => exact mapM_unfoldWithin ih (fun child => Iff.rfl) hself
                | block body keyword =>
                    simp only
                    split
                    · exact ih true body node hnode
                    · exact hsettled _ _ (hnode.sequence _ ⟨fill_fresh _ _, trivial⟩)
                | wrapper wrapping target => exact ih openBlock target node hnode
                | typeLoad load =>
                    simp only
                    split
                    · split
                      · exact hsettled _ _ fun _ => ⟨rfl, rfl⟩
                      · exact hsettled _ _ hnode.fresh
                    · exact hsettled _ _ hnode.fresh
                | typeCommand =>
                    cases scope.bind language.types.rule? with
                    | none => exact hsettled _ _ hnode.fresh
                    | some rule =>
                        simp only
                        split
                        · refine rel_map (ih false (some rule) node hnode) ?_
                          intro inner inner' hinner
                          exact ⟨hinner.node, by
                            simp only [settled, hinner.grew, hinner.node.isDeferred]⟩
                        · exact hsettled _ _ hnode.fresh
                | unknown label => exact hsettled _ _ hnode.fresh
          · rw [hkind, hkind']
            exact mapM_unfoldWithin ih hmem hself

theorem unfold (scope : Option TypeId) (openBlock : Bool) (rule : Option RuleId) (node : Outline)
    (hnode : node.IsOpen) :
    Option.Rel (Unfolded.Similar extra) (language.unfold scope openBlock rule node)
      (language'.unfold scope openBlock rule node) := by
  rw [Language.unfold, Language.unfold, unfoldFuel, unfoldFuel, h.grammar.size]
  exact h.unfoldWithin _ _ _ _ _ hnode

/-! ### Passes -/

/-- Listing the names of a reference: the placeholder comes first in both languages. -/
theorem listNames (scope : Option TypeId) {mark : Mark} (hmark : mark.complete = false)
    {part : Deferred} {reference : SymbolRef} (hreference : part.reference = some reference) :
    (language.listNames scope (.deferred mark part)).Similar extra
      (language'.listNames scope (.deferred mark part)) := by
  simp only [Language.listNames, hreference]
  refine similar_choice_iff.2 ⟨fun hcomplete => by simp [hmark] at hcomplete, _, rfl, ?_, ?_⟩
  · intro branch hbranch
    refine ⟨branch, ?_, ?_⟩
    · rcases List.mem_cons.1 hbranch with rfl | hbranch
      · exact List.mem_cons_self ..
      · obtain ⟨name, hname, rfl⟩ := List.mem_map.1 hbranch
        exact List.mem_cons_of_mem _ (List.mem_map.2 ⟨name, (h.candidates _ _).left _ hname, rfl⟩)
    · rcases List.mem_cons.1 hbranch with rfl | hbranch
      · exact similar_ofWord _
      · obtain ⟨name, -, rfl⟩ := List.mem_map.1 hbranch
        exact similar_ofWord _
  · intro branch' hbranch'
    rcases List.mem_cons.1 hbranch' with rfl | hbranch'
    · exact ⟨_, List.mem_cons_self .., .inl (similar_ofWord _)⟩
    · obtain ⟨name, hname, rfl⟩ := List.mem_map.1 hbranch'
      rcases (h.candidates _ _).right _ hname with hname | hextra
      · exact ⟨_, List.mem_cons_of_mem _ (List.mem_map.2 ⟨name, hname, rfl⟩),
          .inl (similar_ofWord _)⟩
      · exact ⟨_, List.mem_cons_self .., .inr ⟨⟨_, rfl⟩, name, hextra, rfl⟩⟩

theorem growDeferred (query : Query) (scope : Option TypeId) (index : Int) {mark : Mark}
    (hmark : mark.complete = false) (part : Deferred) :
    Option.Rel (Unfolded.Similar extra) (language.growDeferred query scope index mark part)
      (language'.growDeferred query scope index mark part) := by
  simp only [Language.growDeferred]
  split
  · next hsome =>
      obtain ⟨reference, hreference⟩ := Option.isSome_iff_exists.1 hsome
      split
      · exact .some ⟨h.listNames scope hmark hreference, rfl⟩
      · exact .some ⟨⟨fun hcomplete => by simp [hmark] at hcomplete, rfl⟩, rfl⟩
  · exact h.unfold _ _ _ _ (isOpen_deferred hmark part)

/-- One pass keeps similar outlines similar, ends at the same place, and makes a difference in both or
in none. -/
theorem grow (query : Query) (limit : Int) {outline other : Outline}
    (hsimilar : outline.Similar extra other) (scope : Option TypeId) (index : Int) :
    Option.Rel (Growth.Similar extra) (language.grow query limit scope index outline)
      (language'.grow query limit scope index other) := by
  induction outline generalizing other scope index with
  | blank mark | word mark w | scope mark type =>
      obtain ⟨hmark, rfl⟩ := hsimilar
      simp only [Language.grow]
      exact .some ⟨⟨hmark, rfl⟩, rfl, rfl⟩
  | deferred mark part =>
      obtain ⟨hmark, rfl⟩ := hsimilar
      simp only [Language.grow]
      split
      · exact .some ⟨⟨hmark, rfl⟩, rfl, rfl⟩
      · next hopen =>
          refine rel_map (h.growDeferred query scope index (by simpa using hopen) part) ?_
          intro unfolded unfolded' hunfolded
          exact ⟨hunfolded.node, by simp only [hunfolded.node.count], hunfolded.grew⟩
  | sequence mark info parts ih =>
      obtain ⟨hmark, parts', rfl, hparts⟩ := similar_sequence_iff.1 hsimilar
      simp only [Language.grow]
      split
      · exact .some ⟨hsimilar, rfl, rfl⟩
      · refine rel_map (growParts hparts
          (fun part hmem part' hpart scope index => ih part hmem hpart scope index) scope index) ?_
        intro grown grown' hgrown
        rw [hgrown.complete]
        exact ⟨.closeSequence hmark info hgrown.parts _ _, hgrown.index, hgrown.grew⟩
  | choice mark branches ih =>
      obtain ⟨hmark, branches', rfl, hbranches⟩ := similar_choice_iff.1 hsimilar
      simp only [Language.grow]
      split
      · exact .some ⟨hsimilar, rfl, rfl⟩
      · refine rel_map (growBranches hbranches
          fun branch hmem branch' hbranch => ih branch hmem hbranch scope index) ?_
        intro grown grown' hgrown
        have hnodes : SimilarBranches extra (grown.map Growth.node) (grown'.map Growth.node) :=
          hgrown.map (fun _ _ hgrowth => hgrowth.node) fun _ _ hgrowth => hgrowth.node
        exact
          { node := .closeChoice hmark hnodes
            index := agreedIndex_congr (hgrown.map (fun _ _ hgrowth => hgrowth.index)
              fun _ _ hgrowth => hgrowth.index).mem_iff
            grew := by
              have hgrew := (hgrown.map (fun _ _ hgrowth => hgrowth.grew)
                fun _ _ hgrowth => hgrowth.grew).mem_iff
              rw [Bool.eq_iff_iff, List.any_eq_true, List.any_eq_true]
              exact List.mem_map.symm.trans ((hgrew true).trans List.mem_map) }

/-! ### Runs -/

omit h in
theorem offerKeyword {node other : Outline} (hsimilar : node.Similar extra other) (keyword : String) :
    (offerKeyword node keyword).Similar extra (Language.offerKeyword other keyword) := by
  have hending : SimilarBranches extra [.ofWord (.literal keyword)] [.ofWord (.literal keyword)] :=
    similarBranches_singleton (similar_ofWord _)
  have hbeside := similar_choice_iff.2
    ⟨Mark.honest_empty, _, rfl, (similarBranches_singleton hsimilar).append hending⟩
  cases node with
  | blank | word | deferred | scope =>
      obtain ⟨hmark, rfl⟩ := hsimilar
      exact hbeside
  | sequence mark info parts =>
      obtain ⟨hmark, parts', rfl, hparts⟩ := hsimilar
      exact hbeside
  | choice mark branches =>
      obtain ⟨hmark, branches', rfl, hbranches⟩ := similar_choice_iff.1 hsimilar
      exact similar_choice_iff.2 ⟨hmark, _, rfl, hbranches.append hending⟩

theorem blockNode (scope : Option TypeId) (block : Option RuleId) :
    Option.Rel (Similar extra) (language.blockNode scope block)
      (language'.blockNode scope block) := by
  have hkeyword : block.bind language'.grammar.endKeyword? =
      block.bind language.grammar.endKeyword? := by
    rw [funext h.grammar.endKeyword?]
  refine rel_map (h.unfold scope true block _ (isOpen_blank none)) ?_
  intro unfolded unfolded' hunfolded
  rw [hkeyword]
  split
  · exact offerKeyword hunfolded.node _
  · exact hunfolded.node

theorem seedBranches (query : Query) (scope : Option TypeId) (blocks : List (Option RuleId)) :
    Option.Rel (SimilarBranches extra) (language.seedBranches query scope blocks)
      (language'.seedBranches query scope blocks) := by
  induction blocks with
  | nil => exact .some ⟨by simp, by simp⟩
  | cons block blocks ih =>
      have htransparent : language'.isTransparent block = language.isTransparent block := by
        rw [isTransparent, isTransparent, funext h.grammar.endKeyword?]
      refine rel_bind (h.blockNode scope block) ?_
      intro node node' hnode
      have hkept : SimilarBranches extra (node.prune query 0).toList (node'.prune query 0).toList := by
        have hpruned := hnode.prune query 0
        generalize node.prune query 0 = kept, node'.prune query 0 = kept' at hpruned
        cases hpruned with
        | none => exact ⟨by simp, by simp⟩
        | some hkept => exact similarBranches_singleton hkept
      simp only [htransparent]
      split
      · refine rel_map ih ?_
        intro rest rest' hrest
        exact hkept.append hrest
      · exact .some hkept

theorem seed (query : Query) (scope : Option TypeId) (blocks : List RuleId) :
    Option.Rel (Similar extra) (language.seed query scope blocks)
      (language'.seed query scope blocks) := by
  have hblocks : language'.seedBlocks blocks = language.seedBlocks blocks := by
    rw [seedBlocks, seedBlocks, h.grammar.root]
  rw [Language.seed, Language.seed, hblocks]
  refine rel_map (h.seedBranches query scope _) ?_
  intro branches branches' hbranches
  exact similar_choice_iff.2 ⟨Mark.honest_empty, _, rfl, hbranches⟩

/-- The two runs take the same number of passes and end alike. -/
theorem settleWithin (query : Query) (scope : Option TypeId) (limit : Int) (passes : Nat)
    {outline other : Outline} (hsimilar : outline.Similar extra other) :
    Option.Rel (Option.Rel (Similar extra))
      (language.settleWithin query scope limit passes outline)
      (language'.settleWithin query scope limit passes other) := by
  induction passes generalizing outline other with
  | zero => exact .none
  | succ passes ih =>
      refine rel_bind (h.grow query limit hsimilar scope 0) ?_
      intro growth growth' hgrowth
      have hpruned := hgrowth.node.prune query 0
      generalize growth.node.prune query 0 = pruned, growth'.node.prune query 0 = pruned' at hpruned
      cases hpruned with
      | none => exact .some .none
      | some hpruned =>
          simp only [hgrowth.grew]
          split
          · exact ih hpruned
          · exact .some (.some hpruned)

end Language.Extends

/-! ### Answers -/

namespace Language

/-- The answer to a request, given what the passes come to. -/
def completionOf (language : Language) (reading : Reading) : Option Outline → Completion
  | none => { insertPosition := reading.span.start, replaceLength := reading.span.length }
  | some outline =>
      let offers := outline.offers language.grammar reading.query.active
      { suggestions := Ranking.rank offers.texts
        insertPosition := reading.span.start
        replaceLength := reading.span.length
        lastToken := !offers.more }

/-- The answer to a request that names a file to include. -/
def includeCompletion (language : Language) (files : FileTree) (reading : Reading) : Completion :=
  let found := Include.offers files language.settings (reading.query.words[1]?.getD "")
  { suggestions := found.suggestions
    insertPosition := reading.span.start
    replaceLength := reading.span.length
    partialToken := found.partialToken }

/-- The words that may stand at the cursor, if this is settled in at most `passes` passes. -/
def suggestWithin (language : Language) (passes : Nat) (files : FileTree) (request : Request) :
    Option Completion :=
  let commands := language.settings.includeCommands
  let reading := Reading.ofText request.text request.cursor .suggest commands
  let query := reading.query
  if query.isInclude commands then some (language.includeCompletion files reading)
  else
    ((language.seed query request.scope request.blocks).bind
      (language.settleWithin query request.scope query.words.length passes)).map
        (language.completionOf reading)

/-- The number of passes allowed for a request for suggestions. -/
def suggestBudget (language : Language) (request : Request) : Nat :=
  language.passBudget (language.suggestQuery request) request.blocks
    (language.suggestQuery request).words.length

theorem suggest_eq_suggestWithin (language : Language) (files : FileTree) (request : Request) :
    language.suggest files request =
      language.suggestWithin (language.suggestBudget request) files request := by
  rfl

/-- An outcome stays the same if more passes are allowed. -/
theorem settleWithin_of_le {language : Language} {query : Query} {scope : Option TypeId}
    {limit : Int} {passes passes' : Nat} {outline : Outline} {outcome : Option Outline}
    (h : language.settleWithin query scope limit passes outline = some outcome)
    (hle : passes ≤ passes') :
    language.settleWithin query scope limit passes' outline = some outcome := by
  induction passes generalizing passes' outline with
  | zero => cases h
  | succ passes ih =>
      obtain ⟨more, rfl⟩ : ∃ more, passes' = more + 1 := ⟨passes' - 1, by omega⟩
      obtain ⟨growth, hgrowth, h⟩ := Option.bind_eq_some_iff.1 h
      rw [settleWithin, hgrowth, Option.bind_some]
      cases hpruned : growth.node.prune query 0 with
      | none =>
          rw [hpruned] at h
          exact h
      | some pruned =>
          rw [hpruned] at h
          simp only at h ⊢
          split at h
          · next hgrew =>
              rw [if_pos hgrew]
              exact ih h (by omega)
          · next hgrew =>
              rw [if_neg hgrew]
              exact h

theorem suggestWithin_of_le {language : Language} {passes passes' : Nat} {files : FileTree}
    {request : Request} {completion : Completion}
    (h : language.suggestWithin passes files request = some completion) (hle : passes ≤ passes') :
    language.suggestWithin passes' files request = some completion := by
  simp only [suggestWithin] at h ⊢
  split at h
  · next hinclude =>
      rw [if_pos hinclude]
      exact h
  · next hinclude =>
      rw [if_neg hinclude]
      obtain ⟨outcome, houtcome, rfl⟩ := Option.map_eq_some_iff.1 h
      obtain ⟨outline, hseed, hsettled⟩ := Option.bind_eq_some_iff.1 houtcome
      rw [hseed, Option.bind_some, settleWithin_of_le hsettled hle, Option.map_some]

/-- The answers in two languages are related if the answers read off similar outlines are. -/
theorem Extends.suggestWithin {extra : String → Prop} {language language' : Language}
    (h : language.Extends extra language') {R : Completion → Completion → Prop}
    (hsame : ∀ completion, R completion completion)
    (houtcome : ∀ reading outcome outcome', Option.Rel (Outline.Similar extra) outcome outcome' →
      R (language.completionOf reading outcome) (language'.completionOf reading outcome'))
    (passes : Nat) (files : FileTree) (request : Request) :
    Option.Rel R (language.suggestWithin passes files request)
      (language'.suggestWithin passes files request) := by
  simp only [Language.suggestWithin, includeCompletion, h.settings]
  split
  · exact .some (hsame _)
  · refine rel_map (rel_bind (h.seed _ _ _) ?_) (houtcome _)
    intro outline other hsimilar
    exact h.settleWithin _ _ _ passes hsimilar

end Language

end Typeahead
