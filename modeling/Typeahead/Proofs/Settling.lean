/-
The passes over an outline of a position-determined grammar.

Growing and pruning are repeated until a pass unfolds nothing.  What carries through the passes is
that the outline *tracks* the grammar: it yields only what the root derives, and all of that which
agrees with the typed words.  Every pass that goes on makes the outline lighter, and the seed is
lighter than the number of passes allowed, so there always is an outcome.  In the outcome nothing is
put off below the limit, and every word list agrees with the typed words as far as the limit.

Main definitions:

* `Typeahead.Grammar.price` — a price for every rule, bounded by the number of passes allowed;
* `Typeahead.Outline.Tracks` — what holds of the outline throughout;
* `Typeahead.Language.Settles` — what holds of the outcome.

Main results:

* `Typeahead.Grammar.PositionDetermined.priced` — the prices of references add up to less;
* `Typeahead.Language.settleWithin_settles` — the passes have an outcome if the outline is light
  enough;
* `Typeahead.Language.settle_settles` — a request outside all blocks has an outcome.
-/

import Mathlib.Algebra.Order.BigOperators.Group.List
import Mathlib.Algebra.Order.Ring.Nat
import Typeahead.Completion
import Typeahead.Proofs.Growth
import Typeahead.Proofs.Pruning

set_option relaxedAutoImplicit false
set_option autoImplicit false

namespace Typeahead

/-! ### Prices -/

namespace Grammar

variable {grammar : Grammar} {root : RuleId}

theorem length_references_le_width {id : RuleId} {kind : RuleKind}
    (h : grammar.kind? id = some kind) : kind.references.length ≤ grammar.width := by
  obtain ⟨rule, hrule, rfl⟩ := Option.map_eq_some_iff.1 h
  refine (le_foldl_max 0).2 _ (List.mem_map.2 ⟨rule, ?_, rfl⟩)
  exact Array.mem_toList_iff.2 (Array.mem_of_getElem? hrule)

/-- A price for every rule: it grows with the rank so fast that a rule costs more than the rules it
refers to together. -/
noncomputable def price (grammar : Grammar) (id : RuleId) : Nat :=
  (grammar.width + 1) ^ (grammar.rank id + 1)

theorem PositionDetermined.priced (hg : grammar.PositionDetermined root) :
    grammar.Priced root grammar.price := by
  intro id kind hid hkind
  have hle : ∀ cost ∈ kind.references.map grammar.price,
      cost ≤ (grammar.width + 1) ^ grammar.rank id := by
    intro cost hcost
    obtain ⟨target, htarget, rfl⟩ := List.mem_map.1 hcost
    have hlt := hg.rank_lt_rank hid (refers_of_kind hkind htarget)
    exact Nat.pow_le_pow_right (by omega) (by omega)
  have hpos : 0 < (grammar.width + 1) ^ grammar.rank id := Nat.pow_pos (by omega)
  calc (kind.references.map grammar.price).sum
      ≤ kind.references.length * (grammar.width + 1) ^ grammar.rank id := by
        simpa using List.sum_le_card_nsmul _ _ hle
    _ ≤ grammar.width * (grammar.width + 1) ^ grammar.rank id :=
        Nat.mul_le_mul_right _ (length_references_le_width hkind)
    _ < (grammar.width + 1) * (grammar.width + 1) ^ grammar.rank id :=
        Nat.mul_lt_mul_of_pos_right (by omega) hpos
    _ = grammar.price id := by rw [price, Nat.pow_succ, Nat.mul_comm]

end Grammar

/-! ### Outlines that track the grammar -/

namespace Outline

variable {grammar : Grammar} {root : RuleId} {query : Query} {cost : RuleId → Nat}

/-- The outline yields what the root derives: nothing else, and all that agrees with the query. -/
structure Tracks (grammar : Grammar) (root : RuleId) (query : Query) (outline : Outline) :
    Prop where
  regular : outline.Regular grammar root
  sound : ∀ words, outline.Yields grammar words → grammar.Derives root words
  complete : ∀ words, grammar.Derives root words → query.Agrees 0 words →
    outline.Yields grammar words
  variants : outline.variants grammar.parseChoices ≤ grammar.parseChoices root

theorem Tracks.follows {before after : Outline} (h : before.Tracks grammar root query)
    (hfollows : Follows grammar root cost before after)
    (hkeeps : ∀ words, before.Yields grammar words → query.Agrees 0 words →
      after.Yields grammar words) : after.Tracks grammar root query where
  regular := hfollows.regular
  sound words hwords := h.sound words (hfollows.yields words hwords)
  complete words hwords hagrees := hkeeps words (h.complete words hwords hagrees) hagrees
  variants := hfollows.variants.trans h.variants

/-- A single branch, as a choice. -/
theorem Tracks.singleton {node : Outline} (h : node.Tracks grammar root query)
    {mark : Mark} (hmark : mark.complete = false) :
    (Outline.choice mark [node]).Tracks grammar root query where
  regular := ⟨by simp, by simp [hmark], h.regular, trivial⟩
  sound words hwords := by
    obtain ⟨branch, hmem, hbranch⟩ := yieldsAny_iff.1 hwords
    rw [List.mem_singleton.1 hmem] at hbranch
    exact h.sound words hbranch
  complete words hwords hagrees :=
    yieldsAny_iff.2 ⟨node, List.mem_singleton_self _, h.complete words hwords hagrees⟩
  variants := by simpa [Outline.variants, variantsAny] using h.variants

theorem StandsFor.tracks {node : Outline}
    (h : node.StandsFor grammar root cost root) :
    node.Tracks grammar root query where
  regular := h.regular
  sound words hwords := (h.yields words).1 hwords
  complete words hwords _ := (h.yields words).2 hwords
  variants := h.variants.le

end Outline

/-! ### The passes -/

namespace Language

open Outline

variable {language : Language} {root : RuleId} {query : Query} {cost : RuleId → Nat} {limit : Nat}

/-- What holds of the outcome of the passes: if every branch was ruled out then nothing that the root
derives agrees with the query, and otherwise the outline still tracks the grammar, is expanded to the
limit, and agrees with the query up to there. -/
def Settles (language : Language) (root : RuleId) (query : Query) (limit : Nat) :
    Option Outline → Prop
  | none => ∀ words, language.grammar.Derives root words → ¬ query.Agrees 0 words
  | some outline =>
      outline.Tracks language.grammar root query ∧
        outline.ExpandedTo language.grammar limit 0 ∧
        ∀ words, outline.Yields language.grammar words → query.Agrees 0 (words.take limit)

/-- The passes have an outcome if there are more of them than the outline weighs. -/
theorem settleWithin_settles (hg : language.grammar.PositionDetermined root)
    (hprice : language.grammar.Priced root cost) (scope : Option TypeId) {passes : Nat}
    {outline : Outline} (htracks : outline.Tracks language.grammar root query)
    (hweight : outline.weight cost < passes) :
    ∃ outcome, language.settleWithin query scope limit passes outline = some outcome ∧
      language.Settles root query limit outcome := by
  induction passes generalizing outline with
  | zero => omega
  | succ passes ih =>
      obtain ⟨growth, hgrowth, hgrows⟩ := grow_grows query limit hg hprice
        htracks.regular scope 0
      have hgrown : growth.node.Tracks language.grammar root query :=
        htracks.follows hgrows.follows fun words hwords _ => hgrows.keeps words hwords
      have hprunes := retain_prunes cost query hg hgrown.regular 0
      rw [settleWithin, hgrowth, Option.bind_some, prune]
      by_cases hstays : (growth.node.retain query 0).stays = true
      · have hfollows := hprunes.follows hstays
        have hpruned : (growth.node.retain query 0).value.Tracks language.grammar root query :=
          hgrown.follows hfollows fun words hwords hagrees =>
            (hprunes.keeps words hwords hagrees).2
        simp only [hstays, if_true]
        cases hgrew : growth.grew with
        | true =>
            -- each further pass is paid for by the weight it takes off
            have hlighter := hgrows.lighter hgrew
            have hle := hfollows.weight
            exact ih hpruned (by omega)
        | false =>
            -- a pass that changes nothing leaves nothing put off before the limit
            have hexp := hgrows.expanded hgrew 0 Reads.self
            exact ⟨_, rfl, hpruned, hprunes.expanded hstays limit hexp,
              hprunes.agrees hstays limit hexp⟩
      · simp only [hstays]
        refine ⟨none, rfl, fun words hwords hagrees => hstays ?_⟩
        exact (hprunes.keeps words (hgrown.complete words hwords hagrees) hagrees).1

/-- Without any branch the first pass is the last. -/
theorem settleWithin_choice_nil (hquery : query.words ≠ []) (scope : Option TypeId) (mark : Mark)
    (hmark : mark.complete = false) (limit : Int) (passes : Nat) :
    language.settleWithin query scope limit (passes + 1) (.choice mark []) = some none := by
  have hlength : ¬ query.words.length ≤ 0 := by simpa using hquery
  simp [settleWithin, grow, growBranches, hmark, closeChoice, prune, retain, retainBranches,
    hlength]

/-! ### The seed -/

/-- The root of a position-determined grammar is no block, so nothing is added to what it unfolds
into. -/
theorem blockNode_root (hg : language.grammar.PositionDetermined root)
    (hprice : language.grammar.Priced root cost) (scope : Option TypeId) :
    ∃ node, language.blockNode scope (some root) = some node ∧
      node.StandsFor language.grammar root cost root ∧ node.weight cost < cost root := by
  obtain ⟨unfolded, hunfolded, -, hstands, hweight⟩ := unfold_unfolds hg hprice .refl scope true
    (fillable_blank Grammar.plainSlot_none)
  obtain ⟨kind, hkind, hplain⟩ := hg.plain root .refl
  refine ⟨unfolded.node, ?_, hstands, hweight⟩
  rw [blockNode, hunfolded, Option.map_some, Option.bind_some,
    Grammar.endKeyword?_of_isPlain hkind hplain]
  rfl

/-- The seed outside all blocks: what the root unfolds into, pruned. -/
theorem seed_root (hg : language.grammar.PositionDetermined root)
    (hroot : language.grammar.root = some root) {scope : Option TypeId} {node : Outline}
    (hnode : language.blockNode scope (some root) = some node) :
    language.seed query scope [] = some (.choice {} (node.prune query 0).toList) := by
  obtain ⟨kind, hkind, hplain⟩ := hg.plain root .refl
  have hopaque : language.isTransparent (some root) = false := by
    rw [isTransparent, Option.bind_some, Grammar.endKeyword?_of_isPlain hkind hplain]
    rfl
  simp [seed, seedBlocks, hroot, seedBranches, hnode, hopaque]

theorem price_le_passBudget (hg : language.grammar.PositionDetermined root) (query : Query)
    (limit : Int) : language.grammar.price root ≤ language.passBudget query [] limit := by
  have hrank := hg.rank_lt_size .refl
  calc language.grammar.price root
      ≤ (language.grammar.width + 2) ^ (language.grammar.rank root + 1) :=
        Nat.pow_le_pow_left (by omega) _
    _ ≤ (language.grammar.width + 2) ^ (language.grammar.rules.size + 2) :=
        Nat.pow_le_pow_right (by omega) (by omega)
    _ ≤ language.passBudget query [] limit := by
        rw [passBudget]
        simp only [List.length_nil, Nat.pow_eq]
        omega

/-- A request outside all blocks has an outcome. -/
theorem settle_settles (hg : language.grammar.PositionDetermined root)
    (hroot : language.grammar.root = some root) (query : Query) (scope : Option TypeId)
    (limit : Nat) :
    ∃ outcome, language.settle query scope [] limit = some outcome ∧
      language.Settles root query limit outcome := by
  have hprice := hg.priced
  obtain ⟨node, hnode, hstands, hweight⟩ := blockNode_root hg hprice scope
  have hbudget := price_le_passBudget hg query limit
  have hprunes := retain_prunes language.grammar.price query hg hstands.regular 0
  rw [settle, seed_root hg hroot hnode, Option.bind_some, prune]
  by_cases hstays : (node.retain query 0).stays = true
  · have hfollows := hprunes.follows hstays
    have hpruned : (node.retain query 0).value.Tracks language.grammar root query :=
      hstands.tracks.follows hfollows fun words hwords hagrees =>
        (hprunes.keeps words hwords hagrees).2
    have hle := hfollows.weight
    simp only [hstays, if_true, Option.toList_some]
    refine settleWithin_settles hg hprice scope (hpruned.singleton rfl) ?_
    simp only [Outline.weight, totalWeight]
    omega
  · have hnone : ∀ words, language.grammar.Derives root words → ¬ query.Agrees 0 words := by
      intro words hwords hagrees
      exact hstays (hprunes.keeps words ((hstands.yields words).2 hwords) hagrees).1
    -- the empty query agrees with everything, and something is derived
    have hquery : query.words ≠ [] := by
      intro hnil
      obtain ⟨words, hwords⟩ := hg.exists_derives .refl
      exact hnone words hwords (Query.agrees_of_length_le (by simp [hnil]) words)
    obtain ⟨passes, hpasses⟩ : ∃ passes, language.passBudget query [] limit = passes + 1 :=
      ⟨language.passBudget query [] limit - 1, by omega⟩
    simp only [hstays, hpasses]
    exact ⟨none, settleWithin_choice_nil hquery scope {} rfl limit passes, hnone⟩

end Language

end Typeahead
