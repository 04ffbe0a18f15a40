/-
Whether a wrapper is as good as what it stands for.

A grammar with one more wrapper, named in place of the rule it wraps wherever one likes, grows the
same outlines: they only differ in the rules that are put off.  So the answers are the same as far as
they are read off the outlines.  But some look-ups go by the kind of a rule and do not see through a
wrapper: the keyword that ends a block around the cursor, the keyword that closes the block a command
opens, and the load that takes its type from a word.  Where these find the same, the answers are the
same; where a block is named through a wrapper, its end keyword is no longer offered.

Main results:

* `Typeahead.Language.grow_withGrammar`, `Typeahead.Language.settleWithin_withGrammar` — the passes
  come to the same;
* `Typeahead.Language.answers_withGrammar` — so do the answers, where the look-ups find the same;
* `Typeahead.Language.not_answers_withGrammar` — they may find something else.
-/

import Typeahead.Proofs.Lockstep
import Typeahead.Proofs.Unwrapping

set_option relaxedAutoImplicit false
set_option autoImplicit false

namespace Typeahead

/-! ### Nodes and their parts -/

/-- A node after a pass, with every rule that is put off replaced. -/
def Growth.mapRules (f : RuleId → RuleId) (growth : Growth) : Growth :=
  { growth with node := growth.node.mapRules f }

theorem Growth.mapRules_node (f : RuleId → RuleId) (growth : Growth) :
    (growth.mapRules f).node = growth.node.mapRules f := rfl

theorem Growth.mapRules_grew (f : RuleId → RuleId) (growth : Growth) :
    (growth.mapRules f).grew = growth.grew := rfl

theorem Growth.mapRules_index (f : RuleId → RuleId) (growth : Growth) :
    (growth.mapRules f).index = growth.index := rfl

/-- The parts after a pass, with every rule that is put off replaced. -/
def PartsGrowth.mapRules (f : RuleId → RuleId) (grown : PartsGrowth) : PartsGrowth :=
  { grown with parts := grown.parts.map (Outline.mapRules f) }

namespace Outline

variable {f : RuleId → RuleId}

theorem scopeAt_mapRules (current : Option TypeId) (part : Outline) :
    (part.mapRules f).scopeAt current = part.scopeAt current := by
  cases part <;> simp [mapRules, scopeAt]

theorem closeSequence_map (mark : Mark) (info : SequenceInfo) (parts : List Outline)
    (complete : Bool) (limit : Int) :
    closeSequence mark info (parts.map (mapRules f)) complete limit =
      (closeSequence mark info parts complete limit).mapRules f := by
  simp only [closeSequence, sumCounts_map fun part _ => count_mapRules part, List.length_map]
  split <;> rw [mapRules]

theorem closeChoice_map (mark : Mark) (branches : List Outline) :
    closeChoice mark (branches.map (mapRules f)) = (closeChoice mark branches).mapRules f := by
  simp only [closeChoice, maxCounts_map fun branch _ => count_mapRules branch, List.all_map,
    Function.comp_def, mark_mapRules]
  split <;> rw [mapRules]

theorem mapRules_ofWord (w : Word) : (ofWord w).mapRules f = ofWord w := by
  rw [ofWord, ← fill_mapRules, mapRules]

end Outline

namespace Language

open Outline

variable {language : Language} {query : Query} {limit : Int} {wrapped : Grammar} {target : RuleId}

theorem candidates_withGrammar (scope : Option TypeId) (reference : SymbolRef) :
    (language.withGrammar wrapped).candidates scope reference =
      language.candidates scope reference := rfl

theorem listNames_withGrammar (wrapped : Grammar) (f : RuleId → RuleId) (scope : Option TypeId)
    (mark : Mark) (part : Deferred) :
    language.listNames scope (.deferred mark { part with rule := part.rule.map f }) =
      ((language.withGrammar wrapped).listNames scope (.deferred mark part)).mapRules f := by
  cases href : part.reference with
  | none => simp only [listNames, href, mapRules]
  | some reference =>
      simp only [listNames, href, candidates_withGrammar, mapRules, List.map_cons, List.map_map,
        mapRules_ofWord, Function.comp_def]

theorem growParts_withGrammar {parts : List Outline}
    (ih : ∀ part ∈ parts, ∀ scope index growth,
      language.grow query limit scope index
        (part.mapRules (language.grammar.unwrap target)) = some growth →
      ((language.withGrammar wrapped).grow query limit scope index part).map
        (Growth.mapRules (language.grammar.unwrap target)) = some growth)
    {scope : Option TypeId} {index : Int} {grown : PartsGrowth}
    (hgrown : language.growParts query limit scope index
      (parts.map (mapRules (language.grammar.unwrap target))) = some grown) :
    ((language.withGrammar wrapped).growParts query limit scope index parts).map
      (PartsGrowth.mapRules (language.grammar.unwrap target)) = some grown := by
  induction parts generalizing scope index grown with
  | nil =>
      cases hgrown
      rfl
  | cons part parts ihparts =>
      rw [List.map_cons, growParts, scopeAt_mapRules] at hgrown
      rw [growParts]
      split at hgrown
      · next hlimit =>
          rw [if_pos hlimit, ← hgrown]
          rfl
      · next hlimit =>
          rw [if_neg hlimit]
          obtain ⟨head, hhead, hgrown⟩ := Option.bind_eq_some_iff.1 hgrown
          obtain ⟨rest, hrest, rfl⟩ := Option.map_eq_some_iff.1 hgrown
          obtain ⟨head', hhead', rfl⟩ :=
            Option.map_eq_some_iff.1 (ih part (List.mem_cons_self ..) _ _ _ hhead)
          rw [Growth.mapRules_index] at hrest
          obtain ⟨rest', hrest', rfl⟩ := Option.map_eq_some_iff.1
            (ihparts (fun other hother => ih other (List.mem_cons_of_mem _ hother)) hrest)
          rw [hhead', Option.bind_some, hrest', Option.map_some, Option.map_some]
          simp only [PartsGrowth.mapRules, Growth.mapRules, List.map_cons, mark_mapRules]

theorem growBranches_withGrammar {branches : List Outline}
    (ih : ∀ branch ∈ branches, ∀ scope index growth,
      language.grow query limit scope index
        (branch.mapRules (language.grammar.unwrap target)) = some growth →
      ((language.withGrammar wrapped).grow query limit scope index branch).map
        (Growth.mapRules (language.grammar.unwrap target)) = some growth)
    {scope : Option TypeId} {index : Int} {grown : List Growth}
    (hgrown : language.growBranches query limit scope index
      (branches.map (mapRules (language.grammar.unwrap target))) = some grown) :
    ((language.withGrammar wrapped).growBranches query limit scope index branches).map
      (List.map (Growth.mapRules (language.grammar.unwrap target))) = some grown := by
  induction branches generalizing grown with
  | nil =>
      cases hgrown
      rfl
  | cons branch branches ihbranches =>
      rw [List.map_cons, growBranches] at hgrown
      obtain ⟨head, hhead, hgrown⟩ := Option.bind_eq_some_iff.1 hgrown
      obtain ⟨rest, hrest, rfl⟩ := Option.map_eq_some_iff.1 hgrown
      obtain ⟨head', hhead', rfl⟩ :=
        Option.map_eq_some_iff.1 (ih branch (List.mem_cons_self ..) _ _ _ hhead)
      obtain ⟨rest', hrest', rfl⟩ := Option.map_eq_some_iff.1
        (ihbranches (fun other hother => ih other (List.mem_cons_of_mem _ hother)) hrest)
      rw [growBranches, hhead', Option.bind_some, hrest', Option.map_some, Option.map_some,
        List.map_cons]

/-! ### End keywords and the number of passes -/

theorem offerKeyword_mapRules (f : RuleId → RuleId) (node : Outline) (keyword : String) :
    offerKeyword (node.mapRules f) keyword = (offerKeyword node keyword).mapRules f := by
  cases node with
  | choice mark branches =>
      simp only [mapRules, offerKeyword, List.map_append, List.map_cons, List.map_nil,
        mapRules_ofWord]
  | blank | word | deferred | sequence | scope =>
      simp only [mapRules, offerKeyword, List.map_cons, List.map_nil, mapRules_ofWord]

/-- A block ends with the same keyword if it is named through the wrapper. -/
def SameKeyword (language : Language) (target : RuleId) (wrapped : Grammar)
    (block : Option RuleId) : Prop :=
  block.bind wrapped.endKeyword? =
    (block.map (language.grammar.unwrap target)).bind language.grammar.endKeyword?

theorem sameKeyword (h : language.grammar.AddsWrapper target wrapped)
    (hblock : (language.grammar.kind? target).bind RuleKind.endKeyword? = none)
    (block : Option RuleId) : language.SameKeyword target wrapped block := by
  cases block with
  | none => rfl
  | some id => exact h.endKeyword? hblock id

/-- With one more rule at least as many passes are allowed. -/
theorem passBudget_le_withGrammar (h : language.grammar.AddsWrapper target wrapped) (query : Query)
    (blocks : List RuleId) (limit : Int) :
    language.passBudget query (blocks.map (language.grammar.unwrap target)) limit ≤
      (language.withGrammar wrapped).passBudget query blocks limit := by
  have hwidth := Nat.add_le_add_right h.width_le 2
  have hpow : (language.grammar.width + 2) ^ (language.grammar.rules.size + 2) ≤
      (wrapped.width + 2) ^ (language.grammar.rules.size + 1 + 2) :=
    (Nat.pow_le_pow_left hwidth _).trans (Nat.pow_le_pow_right (by omega) (by omega))
  simp only [passBudget, withGrammar_grammar, withGrammar_types, h.size, List.length_map]
  refine Nat.mul_le_mul_left _ (Nat.add_le_add hpow ?_)
  exact Nat.mul_le_mul_right _ (Nat.mul_le_mul_right _ (by omega))

/-! ### Passes with the wrapper -/

section Wrapped

variable (h : language.grammar.AddsWrapper target wrapped)
  (hrules : ∀ type, language.types.rule? type ≠ some language.grammar.next)
  (hfinds : language.grammar.SameFinds wrapped)
include h hrules hfinds

theorem growDeferred_withGrammar {scope : Option TypeId} {index : Int} {mark : Mark}
    {part : Deferred} {unfolded : Unfolded}
    (hunfolded : language.growDeferred query scope index mark
      { part with rule := part.rule.map (language.grammar.unwrap target) } = some unfolded) :
    ((language.withGrammar wrapped).growDeferred query scope index mark part).map
      (Unfolded.mapRules (language.grammar.unwrap target)) = some unfolded := by
  rw [growDeferred] at hunfolded ⊢
  split at hunfolded
  · next hreference =>
      rw [if_pos hreference]
      split at hunfolded
      · next hlists =>
          rw [if_pos hlists, ← hunfolded, Option.map_some, Unfolded.mapRules,
            listNames_withGrammar wrapped]
      · next hlists =>
          rw [if_neg hlists, ← hunfolded, Option.map_some, Unfolded.mapRules, mapRules]
  · next hreference =>
      rw [if_neg hreference]
      refine unfold_withGrammar h hrules hfinds ?_
      rw [mapRules]
      exact hunfolded

/-- A pass with the wrapper ends where it does without, and comes to the same. -/
theorem grow_withGrammar {scope : Option TypeId} {index : Int} {outline : Outline}
    {growth : Growth}
    (hgrowth : language.grow query limit scope index
      (outline.mapRules (language.grammar.unwrap target)) = some growth) :
    ((language.withGrammar wrapped).grow query limit scope index outline).map
      (Growth.mapRules (language.grammar.unwrap target)) = some growth := by
  induction outline generalizing scope index growth with
  | blank mark | word mark w | scope mark type =>
      rw [mapRules, grow] at hgrowth
      rw [grow, ← hgrowth, Option.map_some, Growth.mapRules, mapRules]
  | deferred mark part =>
      rw [mapRules, grow] at hgrowth
      rw [grow]
      split at hgrowth
      · next hcomplete =>
          rw [if_pos hcomplete, ← hgrowth, Option.map_some, Growth.mapRules, mapRules]
      · next hcomplete =>
          rw [if_neg hcomplete]
          obtain ⟨unfolded, hunfolded, rfl⟩ := Option.map_eq_some_iff.1 hgrowth
          obtain ⟨unfolded', hunfolded', rfl⟩ := Option.map_eq_some_iff.1
            (growDeferred_withGrammar h hrules hfinds hunfolded)
          rw [hunfolded', Option.map_some, Option.map_some]
          simp only [Growth.mapRules, Unfolded.mapRules, count_mapRules]
  | sequence mark info parts ih =>
      rw [mapRules, grow] at hgrowth
      rw [grow]
      split at hgrowth
      · next hcomplete =>
          rw [if_pos hcomplete, ← hgrowth, Option.map_some, Growth.mapRules, mapRules]
      · next hcomplete =>
          rw [if_neg hcomplete]
          obtain ⟨grown, hgrown, rfl⟩ := Option.map_eq_some_iff.1 hgrowth
          obtain ⟨grown', hgrown', rfl⟩ := Option.map_eq_some_iff.1
            (growParts_withGrammar (fun part hpart _ _ _ => ih part hpart) hgrown)
          rw [hgrown', Option.map_some, Option.map_some]
          simp only [Growth.mapRules, PartsGrowth.mapRules, closeSequence_map]
  | choice mark branches ih =>
      rw [mapRules, grow] at hgrowth
      rw [grow]
      split at hgrowth
      · next hcomplete =>
          rw [if_pos hcomplete, ← hgrowth, Option.map_some, Growth.mapRules, mapRules]
      · next hcomplete =>
          rw [if_neg hcomplete]
          obtain ⟨grown, hgrown, rfl⟩ := Option.map_eq_some_iff.1 hgrowth
          obtain ⟨grown', hgrown', rfl⟩ := Option.map_eq_some_iff.1
            (growBranches_withGrammar (fun branch hbranch _ _ _ => ih branch hbranch)
              hgrown)
          rw [hgrown', Option.map_some, Option.map_some]
          simp only [Growth.mapRules, ← closeChoice_map, List.map_map, List.any_map,
            Function.comp_def]

/-- All passes together end where they do without the wrapper, and come to the same. -/
theorem settleWithin_withGrammar {scope : Option TypeId} {passes : Nat} {outline : Outline}
    {outcome : Option Outline}
    (hsettled : language.settleWithin query scope limit passes
      (outline.mapRules (language.grammar.unwrap target)) = some outcome) :
    ((language.withGrammar wrapped).settleWithin query scope limit passes outline).map
      (Option.map (mapRules (language.grammar.unwrap target))) = some outcome := by
  induction passes generalizing outline with
  | zero => cases hsettled
  | succ passes ih =>
      obtain ⟨growth, hgrowth, hsettled⟩ := Option.bind_eq_some_iff.1 hsettled
      obtain ⟨growth', hgrowth', rfl⟩ :=
        Option.map_eq_some_iff.1 (grow_withGrammar h hrules hfinds hgrowth)
      rw [settleWithin, hgrowth', Option.bind_some]
      rw [Growth.mapRules_node, prune_mapRules, Growth.mapRules_grew] at hsettled
      cases hpruned : growth'.node.prune query 0 with
      | none =>
          rw [hpruned] at hsettled
          exact hsettled
      | some pruned =>
          rw [hpruned, Option.map_some] at hsettled
          simp only at hsettled ⊢
          split at hsettled
          · next hgrew =>
              rw [if_pos hgrew]
              exact ih hsettled
          · next hgrew =>
              rw [if_neg hgrew]
              exact hsettled

/-! ### The seed -/

theorem blockNode_withGrammar {scope : Option TypeId} {block : Option RuleId}
    (hkeyword : language.SameKeyword target wrapped block) {node : Outline}
    (hnode : language.blockNode scope (block.map (language.grammar.unwrap target)) = some node) :
    ((language.withGrammar wrapped).blockNode scope block).map
      (mapRules (language.grammar.unwrap target)) = some node := by
  obtain ⟨unfolded, hunfolded, rfl⟩ := Option.map_eq_some_iff.1 hnode
  have hblank : (Outline.blank {}).mapRules (language.grammar.unwrap target) = .blank {} := by
    rw [mapRules]
  rw [← hblank] at hunfolded
  obtain ⟨unfolded', hunfolded', rfl⟩ := Option.map_eq_some_iff.1
    (unfold_withGrammar h hrules hfinds hunfolded)
  rw [blockNode, hunfolded', Option.map_some, Option.map_some, withGrammar_grammar, hkeyword]
  split
  · rw [Unfolded.mapRules, offerKeyword_mapRules]
  · rfl

theorem seedBranches_withGrammar {scope : Option TypeId} {seeds : List (Option RuleId)}
    (hkeywords : ∀ block ∈ seeds, language.SameKeyword target wrapped block)
    {branches : List Outline}
    (hbranches : language.seedBranches query scope
      (seeds.map (Option.map (language.grammar.unwrap target))) = some branches) :
    ((language.withGrammar wrapped).seedBranches query scope seeds).map
      (List.map (mapRules (language.grammar.unwrap target))) = some branches := by
  induction seeds generalizing branches with
  | nil =>
      cases hbranches
      rfl
  | cons block seeds ih =>
      have hkeyword := hkeywords block (List.mem_cons_self ..)
      have htransparent : (language.withGrammar wrapped).isTransparent block =
          language.isTransparent (block.map (language.grammar.unwrap target)) := by
        rw [isTransparent, isTransparent, withGrammar_grammar, hkeyword]
      obtain ⟨node, hnode, hbranches⟩ := Option.bind_eq_some_iff.1 hbranches
      obtain ⟨node', hnode', rfl⟩ := Option.map_eq_some_iff.1
        (blockNode_withGrammar h hrules hfinds hkeyword hnode)
      have hkept : (node'.mapRules (language.grammar.unwrap target) |>.prune query 0).toList =
          (node'.prune query 0).toList.map (mapRules (language.grammar.unwrap target)) := by
        rw [prune_mapRules]
        cases node'.prune query 0 <;> rfl
      rw [seedBranches, hnode', Option.bind_some, htransparent]
      simp only [hkept] at hbranches ⊢
      split at hbranches
      · next hshows =>
          rw [if_pos hshows]
          obtain ⟨rest, hrest, rfl⟩ := Option.map_eq_some_iff.1 hbranches
          obtain ⟨rest', hrest', rfl⟩ := Option.map_eq_some_iff.1
            (ih (fun other hother => hkeywords other (List.mem_cons_of_mem _ hother)) hrest)
          rw [hrest', Option.map_some, Option.map_some, List.map_append]
      · next hshows =>
          rw [if_neg hshows, ← hbranches, Option.map_some]

theorem seed_withGrammar {scope : Option TypeId} {blocks : List RuleId}
    (hkeywords : ∀ block ∈ (language.withGrammar wrapped).seedBlocks blocks,
      language.SameKeyword target wrapped block) {outline : Outline}
    (hseed : language.seed query scope (blocks.map (language.grammar.unwrap target)) =
      some outline) :
    ((language.withGrammar wrapped).seed query scope blocks).map
      (mapRules (language.grammar.unwrap target)) = some outline := by
  have hblocks : language.seedBlocks (blocks.map (language.grammar.unwrap target)) =
      ((language.withGrammar wrapped).seedBlocks blocks).map
        (Option.map (language.grammar.unwrap target)) := by
    simp only [seedBlocks, List.isEmpty_map, withGrammar_grammar, ← h.root]
    split
    · rfl
    · rw [List.map_map, List.map_map]
      rfl
  rw [seed, hblocks] at hseed
  obtain ⟨branches, hbranches, rfl⟩ := Option.map_eq_some_iff.1 hseed
  obtain ⟨branches', hbranches', rfl⟩ := Option.map_eq_some_iff.1
    (seedBranches_withGrammar h hrules hfinds hkeywords hbranches)
  rw [seed, hbranches', Option.map_some, Option.map_some, mapRules]

/-! ### Answers -/

theorem settle_withGrammar {scope : Option TypeId} {blocks : List RuleId}
    (hkeywords : ∀ block ∈ (language.withGrammar wrapped).seedBlocks blocks,
      language.SameKeyword target wrapped block) {outcome : Option Outline}
    (hsettled : language.settle query scope (blocks.map (language.grammar.unwrap target)) limit =
      some outcome) :
    ((language.withGrammar wrapped).settle query scope blocks limit).map
      (Option.map (mapRules (language.grammar.unwrap target))) = some outcome := by
  obtain ⟨outline, hseed, hsettled⟩ := Option.bind_eq_some_iff.1 hsettled
  obtain ⟨outline', hseed', rfl⟩ := Option.map_eq_some_iff.1
    (seed_withGrammar h hrules hfinds hkeywords hseed)
  obtain ⟨outcome', houtcome', rfl⟩ := Option.map_eq_some_iff.1
    (settleWithin_withGrammar h hrules hfinds hsettled)
  rw [settle, hseed', Option.bind_some,
    settleWithin_of_le houtcome' (passBudget_le_withGrammar h query blocks limit), Option.map_some]

/-- Where the look-ups find the same, a grammar with one more wrapper has the answers that the grammar
without it has. -/
theorem answers_withGrammar (files : FileTree) (request : Request)
    (hkeywords : ∀ block ∈ (language.withGrammar wrapped).seedBlocks request.blocks,
      language.SameKeyword target wrapped block) :
    (∀ answer, language.suggest files
        { request with blocks := request.blocks.map (language.grammar.unwrap target) } =
          some answer →
      (language.withGrammar wrapped).suggest files request = some answer) ∧
    ∀ hint, language.hint
        { request with blocks := request.blocks.map (language.grammar.unwrap target) } = some hint →
      (language.withGrammar wrapped).hint request = some hint := by
  constructor
  · intro answer hanswer
    rw [suggest] at hanswer ⊢
    simp only at hanswer ⊢
    split at hanswer
    · next hinclude =>
        exact (if_pos hinclude).trans hanswer
    · next hinclude =>
        refine (if_neg hinclude).trans ?_
        rw [withGrammar_settings]
        obtain ⟨outcome, houtcome, rfl⟩ := Option.map_eq_some_iff.1 hanswer
        obtain ⟨outcome', houtcome', rfl⟩ := Option.map_eq_some_iff.1
          (settle_withGrammar h hrules hfinds hkeywords houtcome)
        rw [houtcome', Option.map_some]
        cases outcome' with
        | none => rfl
        | some outline =>
            simp only [Option.map_some, offers_mapRules hfinds, withGrammar_grammar]
  · intro hint hhint
    simp only [Language.hint, withGrammar_settings] at hhint ⊢
    obtain ⟨outcome, houtcome, rfl⟩ := Option.map_eq_some_iff.1 hhint
    obtain ⟨outcome', houtcome', rfl⟩ := Option.map_eq_some_iff.1
      (settle_withGrammar h hrules hfinds hkeywords houtcome)
    rw [houtcome', Option.map_some]
    cases outcome' with
    | none => rfl
    | some outline => simp only [Option.map_some, shapes_mapRules]

end Wrapped

/-! ### A wrapper of a sequence -/

/-- The commands of `nestedLanguage`, with `b c` named through a wrapper. -/
def nestedWrapped : Grammar where
  rules := #[⟨.leaf (.literal "a"), none⟩, ⟨.leaf (.literal "b"), none⟩,
    ⟨.leaf (.literal "c"), none⟩, ⟨.sequence [⟨1⟩, ⟨2⟩] false false, none⟩,
    ⟨.leaf (.literal "x"), none⟩, ⟨.leaf (.literal "y"), none⟩,
    ⟨.sequence [⟨0⟩, ⟨7⟩, ⟨4⟩, ⟨5⟩] false false, none⟩, ⟨.wrapper .reference (some ⟨3⟩), none⟩]
  root := some ⟨6⟩

theorem rule?_eq_none {types : TypeTable} (h : ∀ info ∈ types.types, info.rule = none)
    (type : TypeId) : types.rule? type = none := by
  rw [TypeTable.rule?, TypeTable.get?]
  cases hinfo : types.types[type.index]? with
  | none => rfl
  | some info => exact h info (Array.mem_of_getElem? hinfo)

theorem addsWrapper_nestedWrapped : nestedLanguage.grammar.AddsWrapper ⟨3⟩ nestedWrapped where
  ne_next := by decide
  rules := ⟨nestedWrapped.rules.pop, none, rfl, by decide +kernel⟩
  root := by decide

/-- Behind `a`, the suggestions and the hints do not change. -/
theorem answers_withGrammar_nestedWrapped :
    ∃ answer hint, nestedLanguage.suggest {} nestedRequest = some answer ∧
      (nestedLanguage.withGrammar nestedWrapped).suggest {} nestedRequest = some answer ∧
      nestedLanguage.hint nestedRequest = some hint ∧
      (nestedLanguage.withGrammar nestedWrapped).hint nestedRequest = some hint := by
  have hrules : ∀ type, nestedLanguage.types.rule? type ≠ some nestedLanguage.grammar.next := by
    intro type hrule
    rw [rule?_eq_none (by decide)] at hrule
    cases hrule
  obtain ⟨hsuggest, hhint⟩ := answers_withGrammar addsWrapper_nestedWrapped hrules
    (addsWrapper_nestedWrapped.sameFinds (by decide) (by decide)) {} nestedRequest
    fun block _ => sameKeyword addsWrapper_nestedWrapped (by decide) block
  obtain ⟨answer, hanswer⟩ := Option.isSome_iff_exists.1
    (by decide +kernel : (nestedLanguage.suggest {} nestedRequest).isSome = true)
  obtain ⟨hint, hhinted⟩ := Option.isSome_iff_exists.1
    (by decide +kernel : (nestedLanguage.hint nestedRequest).isSome = true)
  exact ⟨answer, hint, hanswer, hsuggest answer hanswer, hhinted, hhint hint hhinted⟩

/-! ### A wrapper of a block -/

/-- A grammar with the one command `mover speed`, which opens a block that is named by `block`. -/
def moverGrammar (block : RuleId) : Grammar where
  rules := #[⟨.leaf (.literal "mover"), none⟩, ⟨.leaf (.literal "speed"), none⟩,
    ⟨.block (some ⟨1⟩) "end_mover", none⟩, ⟨.sequence [⟨0⟩, ⟨1⟩, block] false false, none⟩]
  root := some ⟨3⟩

/-- The same grammar with the block named through a wrapper. -/
def moverWrapped : Grammar :=
  { moverGrammar ⟨4⟩ with
    rules := (moverGrammar ⟨4⟩).rules.push ⟨.wrapper .reference (some ⟨2⟩), none⟩ }

theorem addsWrapper_moverWrapped : (moverGrammar ⟨2⟩).AddsWrapper ⟨2⟩ moverWrapped where
  ne_next := by decide
  rules := ⟨(moverGrammar ⟨4⟩).rules, none, rfl, by decide +kernel⟩
  root := by decide

/-- The language of this grammar. -/
def blockLanguage : Language where
  grammar := moverGrammar ⟨2⟩

/-- Inside a block that is named through a wrapper its end keyword is not suggested, and a command
that opens a block named through a wrapper is suggested without the keyword that closes it. -/
theorem not_answers_withGrammar :
    blockLanguage.grammar.AddsWrapper ⟨2⟩ moverWrapped ∧
    (∀ type, blockLanguage.types.rule? type ≠ some blockLanguage.grammar.next) ∧
    (∃ answer answer', blockLanguage.suggest {} (.atEnd "" [⟨2⟩] none) = some answer ∧
      (blockLanguage.withGrammar moverWrapped).suggest {} (.atEnd "" [⟨4⟩] none) = some answer' ∧
      "end_mover" ∈ answer.suggestions ∧ "end_mover" ∉ answer'.suggestions) ∧
    ∃ answer answer', blockLanguage.suggest {} (.atEnd "" [] none) = some answer ∧
      (blockLanguage.withGrammar moverWrapped).suggest {} (.atEnd "" [] none) = some answer' ∧
      "mover...end_mover" ∈ answer.suggestions ∧ "mover...end_mover" ∉ answer'.suggestions := by
  refine ⟨addsWrapper_moverWrapped, ?_, ?_, ?_⟩
  · intro type hrule
    rw [rule?_eq_none (by decide)] at hrule
    cases hrule
  · obtain ⟨answer, hanswer, hmem⟩ := @exists_suggest_of_texts blockLanguage
      (.atEnd "" [⟨2⟩] none) (by decide +kernel) ["speed", "end_mover"] (by decide +kernel) {}
    obtain ⟨answer', hanswer', hmem'⟩ := @exists_suggest_of_texts
      (blockLanguage.withGrammar moverWrapped) (.atEnd "" [⟨4⟩] none) (by decide +kernel) ["speed"]
      (by decide +kernel) {}
    exact ⟨answer, answer', hanswer, hanswer', (hmem _).2 (by decide),
      fun hend => absurd ((hmem' _).1 hend) (by decide)⟩
  · obtain ⟨answer, hanswer, hmem⟩ := @exists_suggest_of_texts blockLanguage
      (.atEnd "" [] none) (by decide +kernel) ["mover...end_mover"] (by decide +kernel) {}
    obtain ⟨answer', hanswer', hmem'⟩ := @exists_suggest_of_texts
      (blockLanguage.withGrammar moverWrapped) (.atEnd "" [] none) (by decide +kernel) ["mover"]
      (by decide +kernel) {}
    exact ⟨answer, answer', hanswer, hanswer', (hmem _).2 (by decide),
      fun hend => absurd ((hmem' _).1 hend) (by decide)⟩

end Language

end Typeahead
