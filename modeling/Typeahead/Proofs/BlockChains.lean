/-
Blocks inside blocks.

A request names the blocks around the cursor from the innermost outwards.  The commands of a block
without an end keyword stand beside those of the block around it; any other block hides what is
around it, so the blocks behind the first such block make no difference.

A block with an end keyword offers the keyword beside its commands.  At the start of a command it
agrees with everything that can be typed there, and it is a branch of its own: no pass unfolds it and
no pass rules it out, whatever becomes of the commands beside it.

Main definitions:

* `Typeahead.Grammar.ShowsThrough` — a block without an end keyword;
* `Typeahead.Outline.HasBranch` — a word is one of the branches of an outline;
* `Typeahead.Language.hintWithin` — the hints after a bounded number of passes.

Main results:

* `Typeahead.Language.seed_of_not_showsThrough` — blocks behind one that hides them are not looked
  at;
* `Typeahead.Language.hasBranch_settleWithin` — a branch that is accepted stays to the end;
* `Typeahead.Language.answers_of_not_showsThrough` — answers do not depend on hidden blocks, and the
  end keyword is suggested.
-/

import Typeahead.Proofs.LeftOfCursor
import Typeahead.Proofs.Lockstep

set_option relaxedAutoImplicit false
set_option autoImplicit false

namespace Typeahead

/-- A block without an end keyword: what is around it shows through. -/
def Grammar.ShowsThrough (grammar : Grammar) (block : RuleId) : Prop :=
  ∃ body, grammar.kind? block = some (.block body "")

theorem Grammar.showsThrough_iff {grammar : Grammar} {block : RuleId} :
    grammar.ShowsThrough block ↔ grammar.endKeyword? block = some "" := by
  rw [ShowsThrough, endKeyword?]
  constructor
  · rintro ⟨body, hkind⟩
    rw [hkind]
  · intro h
    split at h
    · next body keyword hkind =>
        rw [Option.some.inj h] at hkind
        exact ⟨body, hkind⟩
    · cases h

/-! ### Branches that stay -/

namespace Outline

variable {word : Word} {outline : Outline} {query : Query}

/-- The word is one of the branches of the outline, or of those of its branches. -/
inductive HasBranch (word : Word) : Outline → Prop
  | self : HasBranch word (.ofWord word)
  | branch {mark : Mark} {branches : List Outline} {branch : Outline} :
      branch ∈ branches → HasBranch word branch → HasBranch word (.choice mark branches)

/-- A branch that is accepted stays. -/
theorem HasBranch.retain {index : Nat} (h : outline.HasBranch word)
    (haccepts : query.accepts word.text index = true) :
    (outline.retain query index).stays = true ∧
      (outline.retain query index).value.HasBranch word := by
  induction h with
  | self => exact ⟨by simp [ofWord, fill, Outline.retain, haccepts], .self⟩
  | @branch mark branches branch hmem hbranch ih =>
      rw [Outline.retain]
      split
      · exact ⟨rfl, .branch hmem hbranch⟩
      · have hkept : (branch.retain query index).value ∈ retainBranches query index branches :=
          mem_retainBranches.2 ⟨branch, hmem, ih.1, rfl⟩
        exact ⟨by simpa using List.ne_nil_of_mem hkept, .branch hkept ih.2⟩

theorem HasBranch.prune (h : outline.HasBranch word)
    (haccepts : query.accepts word.text 0 = true) :
    ∃ pruned, outline.prune query 0 = some pruned ∧ pruned.HasBranch word := by
  obtain ⟨hstays, hkept⟩ := h.retain haccepts
  exact ⟨_, by rw [Outline.prune, if_pos hstays], hkept⟩

/-- A branch is offered at the start of a command. -/
theorem HasBranch.mem_offers {grammar : Grammar} (h : outline.HasBranch word)
    (hblock : word.isBlock = false) (htext : word.text.isEmpty = false) :
    word.rendered ∈ (outline.offers grammar 0).texts := by
  induction h with
  | self => simp [ofWord, fill, mark, Mark.settle, offers, pastQuery, hblock, htext,
      Grammar.closing?, Word.offered]
  | branch hmem _ ih =>
      rw [offers, if_neg (by decide)]
      exact mem_branchOffers.2 ⟨_, hmem, ih⟩

end Outline

namespace Language

open Outline

variable {language : Language} {query : Query} {scope : Option TypeId} {limit : Int} {word : Word}

/-- No pass changes a branch that is a word. -/
theorem hasBranch_grow {outline : Outline} {index : Int} {growth : Growth}
    (h : outline.HasBranch word)
    (hgrow : language.grow query limit scope index outline = some growth) :
    growth.node.HasBranch word := by
  induction h generalizing growth with
  | self =>
      simp only [ofWord, fill, grow, Option.some.injEq] at hgrow
      rw [← hgrow]
      exact .self
  | @branch mark branches branch hmem hbranch ih =>
      rw [grow] at hgrow
      split at hgrow
      · rw [← Option.some.inj hgrow]
        exact .branch hmem hbranch
      · obtain ⟨grown, hgrown, rfl⟩ := Option.map_eq_some_iff.1 hgrow
        rw [growBranches_eq_mapM, mapM_eq_some_iff] at hgrown
        obtain ⟨head, hhead, hstep⟩ := exists_right_of_forall₂ hgrown branch hmem
        have hnode : head.node ∈ grown.map Growth.node := List.mem_map_of_mem hhead
        rw [closeChoice]
        split
        · exact .branch hnode (ih hstep)
        · exact .branch hnode (ih hstep)

/-- A branch that is accepted is still there when the passes come to an end. -/
theorem hasBranch_settleWithin {outline : Outline} {passes : Nat} {outcome : Option Outline}
    (h : outline.HasBranch word) (haccepts : query.accepts word.text 0 = true)
    (hsettle : language.settleWithin query scope limit passes outline = some outcome) :
    ∃ settled, outcome = some settled ∧ settled.HasBranch word := by
  induction passes generalizing outline with
  | zero => cases hsettle
  | succ passes ih =>
      obtain ⟨growth, hgrowth, hsettle⟩ := Option.bind_eq_some_iff.1 hsettle
      obtain ⟨pruned, hpruned, hbranch⟩ := (hasBranch_grow h hgrowth).prune haccepts
      rw [hpruned] at hsettle
      simp only at hsettle
      split at hsettle
      · exact ih hbranch hsettle
      · exact ⟨pruned, (Option.some.inj hsettle).symm, hbranch⟩

/-! ### The seed -/

theorem isTransparent_eq_true_iff {block : RuleId} :
    language.isTransparent (some block) = true ↔ language.grammar.ShowsThrough block := by
  rw [isTransparent, Option.bind_some, beq_iff_eq, Grammar.showsThrough_iff]

theorem isTransparent_eq_false_iff {block : RuleId} :
    language.isTransparent (some block) = false ↔ ¬ language.grammar.ShowsThrough block := by
  rw [← isTransparent_eq_true_iff, Bool.not_eq_true]

theorem seedBlocks_of_mem {inner outer : List RuleId} {block : RuleId} :
    language.seedBlocks (inner ++ block :: outer) = (inner ++ block :: outer).map some := by
  simp [seedBlocks]

/-- Blocks behind one that hides them are not looked at. -/
theorem seed_of_not_showsThrough {block : RuleId} (h : ¬ language.grammar.ShowsThrough block)
    (inner outer : List RuleId) :
    language.seed query scope (inner ++ block :: outer) =
      language.seed query scope (inner ++ [block]) := by
  have hbranches : language.seedBranches query scope ((inner ++ block :: outer).map some) =
      language.seedBranches query scope ((inner ++ [block]).map some) := by
    induction inner with
    | nil => simp [seedBranches, isTransparent_eq_false_iff.2 h]
    | cons other inner ih =>
        simp only [List.cons_append, List.map_cons, seedBranches, ih]
  rw [seed, seed, seedBlocks_of_mem, seedBlocks_of_mem, hbranches]

section Keyword

variable {inner outer : List RuleId} {block : RuleId} {body : Option RuleId} {keyword : String}
  (hkind : language.grammar.kind? block = some (.block body keyword)) (hkeyword : keyword ≠ "")
include hkind hkeyword

/-- The keyword that ends a block is a branch beside its commands. -/
theorem hasBranch_blockNode {node : Outline}
    (hnode : language.blockNode scope (some block) = some node) :
    node.HasBranch (.literal keyword) := by
  have hend : ((some block).bind language.grammar.endKeyword?).filter
      (fun keyword => !keyword.isEmpty) = some keyword := by
    simp [Grammar.endKeyword?, hkind, hkeyword]
  obtain ⟨unfolded, -, rfl⟩ := Option.map_eq_some_iff.1 hnode
  rw [hend]
  simp only [offerKeyword]
  split
  · exact .branch (List.mem_append_right _ List.mem_cons_self) .self
  · exact .branch (List.mem_cons_of_mem _ List.mem_cons_self) .self

variable (hinner : ∀ other ∈ inner, language.grammar.ShowsThrough other)
  (haccepts : query.accepts keyword 0 = true)
include hinner haccepts

/-- Through blocks without an end keyword, the keyword of the next block is among the branches of the
seed. -/
theorem exists_hasBranch_seedBranches {branches : List Outline}
    (hbranches : language.seedBranches query scope ((inner ++ block :: outer).map some) =
      some branches) :
    ∃ branch ∈ branches, branch.HasBranch (.literal keyword) := by
  induction inner generalizing branches with
  | nil =>
      obtain ⟨node, hnode, hbranches⟩ := Option.bind_eq_some_iff.1 hbranches
      obtain ⟨pruned, hpruned, hbranch⟩ :=
        (hasBranch_blockNode hkind hkeyword hnode).prune haccepts
      refine ⟨pruned, ?_, hbranch⟩
      rw [hpruned] at hbranches
      simp only at hbranches
      split at hbranches
      · obtain ⟨rest, -, rfl⟩ := Option.map_eq_some_iff.1 hbranches
        exact List.mem_append_left _ List.mem_cons_self
      · rw [← Option.some.inj hbranches]
        exact List.mem_cons_self
  | cons other inner ih =>
      obtain ⟨hother, hinner⟩ := List.forall_mem_cons.1 hinner
      obtain ⟨node, -, hbranches⟩ := Option.bind_eq_some_iff.1 hbranches
      rw [isTransparent_eq_true_iff.2 hother, if_pos rfl] at hbranches
      obtain ⟨rest, hrest, rfl⟩ := Option.map_eq_some_iff.1 hbranches
      obtain ⟨branch, hmem, hbranch⟩ := ih hinner hrest
      exact ⟨branch, List.mem_append_right _ hmem, hbranch⟩

theorem hasBranch_seed {outline : Outline}
    (hseed : language.seed query scope (inner ++ block :: outer) = some outline) :
    outline.HasBranch (.literal keyword) := by
  rw [seed, seedBlocks_of_mem] at hseed
  obtain ⟨branches, hbranches, rfl⟩ := Option.map_eq_some_iff.1 hseed
  obtain ⟨branch, hmem, hbranch⟩ :=
    exists_hasBranch_seedBranches hkind hkeyword hinner haccepts hbranches
  exact .branch hmem hbranch

end Keyword

/-! ### Answers -/

/-- The hints read off what the passes come to. -/
def commandHintOf (language : Language) (active : Nat) : Option Outline → CommandHint
  | none => { activeWord := active }
  | some outline =>
      let hints := Hint.sorted (outline.shapes language.settings.maxHints true)
      { activeWord := active, concreteWords := Hint.concreteCount hints, hints }

/-- The hints, if they are settled in at most `passes` passes. -/
def hintWithin (language : Language) (passes : Nat) (request : Request) : Option CommandHint :=
  let query := language.typedQuery request
  ((language.seed query.pastCommand request.scope request.blocks).bind
    (language.settleWithin query.pastCommand request.scope language.settings.maxHintWords
      passes)).map (language.commandHintOf query.active)

/-- The number of passes allowed for a request for hints. -/
def hintBudget (language : Language) (request : Request) : Nat :=
  language.passBudget (language.typedQuery request).pastCommand request.blocks
    language.settings.maxHintWords

theorem hint_eq_hintWithin (language : Language) (request : Request) :
    language.hint request = language.hintWithin (language.hintBudget request) request := by
  rfl

/-- Answers stay the same if more passes are allowed. -/
theorem hintWithin_of_le {passes passes' : Nat} {request : Request} {answer : CommandHint}
    (h : language.hintWithin passes request = some answer) (hle : passes ≤ passes') :
    language.hintWithin passes' request = some answer := by
  obtain ⟨outcome, houtcome, rfl⟩ := Option.map_eq_some_iff.1 h
  obtain ⟨outline, hseed, hsettled⟩ := Option.bind_eq_some_iff.1 houtcome
  simp only [hintWithin]
  rw [hseed, Option.bind_some, settleWithin_of_le hsettled hle, Option.map_some]

/-- With more blocks at least as many passes are allowed. -/
theorem passBudget_le {blocks blocks' : List RuleId} (h : blocks.length ≤ blocks'.length) :
    language.passBudget query blocks limit ≤ language.passBudget query blocks' limit :=
  Nat.mul_le_mul_right _ (Nat.mul_le_mul_left _ (Nat.add_le_add_right h 1))

/-- Blocks behind one that hides them make no difference: the answers are the same after every number
of passes, so the completer settles on an answer with these blocks exactly if it does without them.
If the first block that hides those around it ends with a keyword, then at the start of a command the
keyword is suggested, whatever the commands of the block are. -/
theorem answers_of_not_showsThrough (language : Language) (files : FileTree) (request : Request)
    (inner outer : List RuleId) {block : RuleId} (h : ¬ language.grammar.ShowsThrough block) :
    (∀ passes,
      language.suggestWithin passes files { request with blocks := inner ++ block :: outer } =
        language.suggestWithin passes files { request with blocks := inner ++ [block] } ∧
      language.hintWithin passes { request with blocks := inner ++ block :: outer } =
        language.hintWithin passes { request with blocks := inner ++ [block] }) ∧
    (∀ completion,
      language.suggest files { request with blocks := inner ++ [block] } = some completion →
      language.suggest files { request with blocks := inner ++ block :: outer } =
        some completion) ∧
    (∀ answer, language.hint { request with blocks := inner ++ [block] } = some answer →
      language.hint { request with blocks := inner ++ block :: outer } = some answer) ∧
    (∀ body keyword, language.grammar.kind? block = some (.block body keyword) →
      (∀ other ∈ inner, language.grammar.ShowsThrough other) →
      (language.suggestQuery request).active = 0 →
      (language.suggestQuery request).isInclude language.settings.includeCommands = false →
      ∀ passes completion,
        language.suggestWithin passes files { request with blocks := inner ++ block :: outer } =
          some completion →
        (Word.literal keyword).rendered ∈ completion.suggestions) := by
  have hwithin : ∀ passes,
      language.suggestWithin passes files { request with blocks := inner ++ block :: outer } =
        language.suggestWithin passes files { request with blocks := inner ++ [block] } ∧
      language.hintWithin passes { request with blocks := inner ++ block :: outer } =
        language.hintWithin passes { request with blocks := inner ++ [block] } := by
    intro passes
    simp only [suggestWithin, hintWithin, typedQuery, seed_of_not_showsThrough h inner outer]
    exact ⟨trivial, trivial⟩
  have hlength : (inner ++ [block]).length ≤ (inner ++ block :: outer).length := by
    simp
  refine ⟨hwithin, ?_, ?_, ?_⟩
  · intro completion hsuggest
    rw [suggest_eq_suggestWithin] at hsuggest ⊢
    rw [(hwithin _).1]
    exact suggestWithin_of_le hsuggest (passBudget_le hlength)
  · intro answer hhint
    rw [hint_eq_hintWithin] at hhint ⊢
    rw [(hwithin _).2]
    exact hintWithin_of_le hhint (passBudget_le hlength)
  · intro body keyword hkind hinner hactive hinclude passes completion hsuggest
    have hkeyword : keyword ≠ "" := by
      rintro rfl
      exact h ⟨body, hkind⟩
    have haccepts : (language.suggestQuery request).accepts keyword 0 = true := by
      rw [← hactive]
      exact (suggestQuery_active hinclude).2 keyword
    rw [suggestQuery] at hactive hinclude haccepts
    simp only [suggestWithin, hinclude, Bool.false_eq_true, if_false] at hsuggest
    obtain ⟨outcome, houtcome, rfl⟩ := Option.map_eq_some_iff.1 hsuggest
    obtain ⟨outline, hseed, hsettle⟩ := Option.bind_eq_some_iff.1 houtcome
    obtain ⟨settled, rfl, hbranch⟩ := hasBranch_settleWithin
      (hasBranch_seed hkind hkeyword hinner haccepts hseed) haccepts hsettle
    simp only [completionOf, hactive, Ranking.mem_rank]
    exact hbranch.mem_offers rfl (by simpa [Word.literal] using hkeyword)

/-- Three blocks: the commands of a mover, which end without a keyword, those of a platform, which end
with `<end>`, and those of a scenario. -/
def scenarioLanguage : Language where
  grammar :=
    { rules := #[⟨.leaf (.literal "speed"), none⟩, ⟨.block (some ⟨0⟩) "", none⟩,
        ⟨.leaf (.literal "side"), none⟩, ⟨.block (some ⟨2⟩) "<end>", none⟩,
        ⟨.leaf (.literal "date"), none⟩, ⟨.block (some ⟨4⟩) "end_scenario", none⟩]
      root := some ⟨5⟩ }

/-- Inside the mover the platform can be ended, and the scenario makes no difference. -/
theorem answers_of_not_showsThrough_scenarioLanguage :
    ∃ completion answer,
      scenarioLanguage.suggest {} ⟨"", 0, [⟨1⟩, ⟨3⟩, ⟨5⟩], none⟩ = some completion ∧
      scenarioLanguage.suggest {} ⟨"", 0, [⟨1⟩, ⟨3⟩], none⟩ = some completion ∧
      scenarioLanguage.hint ⟨"", 0, [⟨1⟩, ⟨3⟩, ⟨5⟩], none⟩ = some answer ∧
      scenarioLanguage.hint ⟨"", 0, [⟨1⟩, ⟨3⟩], none⟩ = some answer ∧
      "\\<end>" ∈ completion.suggestions := by
  have hblock : ¬ scenarioLanguage.grammar.ShowsThrough ⟨3⟩ := by
    rw [Grammar.showsThrough_iff]
    decide
  have hinner : ∀ other ∈ [(⟨1⟩ : RuleId)], scenarioLanguage.grammar.ShowsThrough other := by
    rintro other hmem
    rw [List.mem_singleton.1 hmem, Grammar.showsThrough_iff]
    decide
  obtain ⟨-, hsuggest, hhint, hkeyword⟩ :=
    answers_of_not_showsThrough scenarioLanguage {} ⟨"", 0, [], none⟩ [⟨1⟩] [⟨5⟩] hblock
  obtain ⟨completion, hcompletion⟩ := Option.isSome_iff_exists.1
    (show (scenarioLanguage.suggest {} ⟨"", 0, [⟨1⟩, ⟨3⟩], none⟩).isSome = true by decide +kernel)
  obtain ⟨answer, hanswer⟩ := Option.isSome_iff_exists.1
    (show (scenarioLanguage.hint ⟨"", 0, [⟨1⟩, ⟨3⟩], none⟩).isSome = true by decide +kernel)
  have hlong := hsuggest completion hcompletion
  refine ⟨completion, answer, hlong, hcompletion, hhint answer hanswer, hanswer, ?_⟩
  have hrendered : (Word.literal "<end>").rendered = "\\<end>" := by decide +kernel
  rw [← hrendered]
  rw [suggest_eq_suggestWithin] at hlong
  exact hkeyword (some ⟨2⟩) "<end>" rfl hinner (by decide +kernel) (by decide +kernel) _ completion
    hlong

end Language

end Typeahead
