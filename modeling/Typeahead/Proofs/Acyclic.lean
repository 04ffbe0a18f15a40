/-
Languages without recursion.

If a rank falls from every rule to the rules it refers to, and from the commands of the current type
to the rule of every type, then every request has an answer.  The rank itself may be as large as it
likes: only the depth of the rules counts, which is bounded by their number.  With the depth a rule
gets a price, greater than the prices of the rules it refers to together, and the effort for an
outline is what its put off parts cost.  A pass that unfolds something takes effort off, pruning
adds none, and the effort for the seed is within the number of passes allowed.

Main definitions:

* `Typeahead.Language.Ranked` — a rank falls from rule to rule;
* `Typeahead.Language.Priced` — a rule costs more than what it may be unfolded into;
* `Typeahead.Eases` — a step that takes something off whenever it reports that it did something.

Main results:

* `Typeahead.Language.Ranked.exists_isDepth` — a ranked language has a depth;
* `Typeahead.Language.unfoldWithin_effort` — unfolding leaves a node alone or puts in what costs
  less;
* `Typeahead.Language.exists_grow_eases` — a pass has an outcome and eases the outline;
* `Typeahead.Language.answers_of_ranked` — unfolding ends, the passes end, and there is an answer.
-/

import Typeahead.Proofs.PlainGrowth
import Typeahead.Proofs.Termination

set_option relaxedAutoImplicit false
set_option autoImplicit false

namespace Typeahead

/-- A step from `before` down to `after` that reports whether it did something. -/
def Eases (before after : Nat) (grew : Bool) : Prop :=
  after ≤ before ∧ (grew = true → after < before)

theorem Eases.refl (effort : Nat) : Eases effort effort false :=
  ⟨le_rfl, by simp⟩

theorem Eases.add {before after before' after' : Nat} {grew grew' : Bool}
    (h : Eases before after grew) (h' : Eases before' after' grew') :
    Eases (before + before') (after + after') (grew || grew') := by
  obtain ⟨hle, hlt⟩ := h
  obtain ⟨hle', hlt'⟩ := h'
  refine ⟨by omega, ?_⟩
  intro hgrew
  rcases Bool.or_eq_true .. ▸ hgrew with hgrew | hgrew
  · have := hlt hgrew
    omega
  · have := hlt' hgrew
    omega

namespace Language

open Outline

variable {language : Language} {rank depth cost : RuleId → Nat}

/-! ### Ranks and prices -/

/-- The rank falls from every rule to the rules it refers to, and from the commands of the current
type to the rule of every type. -/
structure Ranked (language : Language) (rank : RuleId → Nat) : Prop where
  references : ∀ id kind, language.grammar.kind? id = some kind →
    ∀ target ∈ kind.references, rank target < rank id
  commands : ∀ id, language.grammar.kind? id = some .typeCommand →
    ∀ type rule, language.types.rule? type = some rule → rank rule < rank id

theorem Ranked.lt_of_calls (h : language.Ranked rank) {source target : RuleId}
    (hcalls : language.Calls source target) : rank target < rank source := by
  obtain ⟨kind, hkind, href | ⟨rfl, type, htype⟩⟩ := hcalls
  · exact h.references source kind hkind target href
  · exact h.commands source hkind type target htype

theorem Ranked.lt_of_transGen (h : language.Ranked rank) {source target : RuleId}
    (hcalls : Relation.TransGen language.Calls source target) : rank target < rank source := by
  induction hcalls with
  | single hstep => exact h.lt_of_calls hstep
  | tail _ hstep ih => exact (h.lt_of_calls hstep).trans ih

/-- However large the ranks are, the depth of the rules is bounded by their number. -/
theorem Ranked.exists_isDepth (h : language.Ranked rank) :
    ∃ depth, IsDepth language.grammar.rules.size language.Calls depth := by
  refine Typeahead.exists_isDepth ?_ ?_
  · intro source target hcalls
    exact hcalls.index_lt
  · intro id hcycle
    exact absurd (h.lt_of_transGen hcycle) (lt_irrefl _)

/-- A rule costs more than the rules it refers to together, and the commands of the current type
cost more than the rule of any type. -/
structure Priced (language : Language) (cost : RuleId → Nat) : Prop where
  references : ∀ id kind, language.grammar.kind? id = some kind →
    (kind.references.map cost).sum < cost id
  commands : ∀ id, language.grammar.kind? id = some .typeCommand →
    ∀ type rule, language.types.rule? type = some rule → cost rule < cost id

theorem Priced.lt_of_mem_references (h : language.Priced cost) {id target : RuleId}
    {kind : RuleKind}
    (hkind : language.grammar.kind? id = some kind) (htarget : target ∈ kind.references) :
    cost target < cost id :=
  (List.single_le_sum (by simp) _ (List.mem_map_of_mem htarget)).trans_lt
    (h.references id kind hkind)

/-- The price of a rule that is `depth` rules deep. -/
def priceAt (language : Language) (depth : Nat) : Nat := (language.grammar.width + 2) ^ (depth + 1)

theorem priceAt_pos (language : Language) (depth : Nat) : 0 < language.priceAt depth :=
  Nat.pow_pos (by omega)

theorem priceAt_le {depth depth' : Nat} (h : depth ≤ depth') :
    language.priceAt depth ≤ language.priceAt depth' :=
  Nat.pow_le_pow_right (by omega) (by omega)

theorem priceAt_succ (depth : Nat) :
    language.priceAt (depth + 1) = (language.grammar.width + 2) * language.priceAt depth := by
  rw [priceAt, priceAt, Nat.pow_succ, Nat.mul_comm]

theorem priced_priceAt (h : IsDepth language.grammar.rules.size language.Calls depth) :
    language.Priced fun id => language.priceAt (depth id) where
  references id kind hkind := by
    have hpos := h.pos id (Grammar.index_lt_of_kind hkind)
    obtain ⟨below, hbelow⟩ : ∃ below, depth id = below + 1 := ⟨depth id - 1, by omega⟩
    have hle : ∀ price ∈ kind.references.map fun target => language.priceAt (depth target),
        price ≤ language.priceAt below := by
      intro price hprice
      obtain ⟨target, htarget, rfl⟩ := List.mem_map.1 hprice
      have hfalls := h.falls id target ⟨kind, hkind, .inl htarget⟩
      exact priceAt_le (by omega)
    have hprice := priceAt_pos language below
    calc (kind.references.map fun target => language.priceAt (depth target)).sum
        ≤ kind.references.length * language.priceAt below := by
          simpa using List.sum_le_card_nsmul _ _ hle
      _ ≤ language.grammar.width * language.priceAt below :=
          Nat.mul_le_mul_right _ (Grammar.length_references_le_width hkind)
      _ < (language.grammar.width + 2) * language.priceAt below :=
          Nat.mul_lt_mul_of_pos_right (by omega) hprice
      _ = language.priceAt (depth id) := by rw [hbelow, priceAt_succ]
  commands id hkind type rule hrule := by
    have hfalls := h.falls id rule ⟨_, hkind, .inr ⟨rfl, type, hrule⟩⟩
    exact Nat.pow_lt_pow_right (by omega) (by omega)

/-! ### Unfolding -/

theorem effort_fillFree (cost : RuleId → Nat) (grammar : Grammar) (id : RuleId) (free : FreeWord)
    (node : Outline) :
    (node.fillFree grammar id free).effort cost ≤ 1 := by
  rw [fillFree]
  generalize ((node.tagByLoad grammar id).tagByKind free id).tagByName free id = tagged
  cases tagged with
  | deferred mark part =>
      rw [showPlaceholder]
      split
      · next href =>
          simp only [Outline.effort, href, if_true]
          exact le_rfl
      · exact Nat.zero_le _
  | blank | word | sequence | choice | scope => exact Nat.zero_le _

/-- What unfolding comes to in terms of effort: the node is left alone, and a put off node then
counts as not unfolded, or it now costs less than the rule. -/
def Spends (cost : RuleId → Nat) (rule : Option RuleId) (node : Outline) (unfolded : Unfolded) :
    Prop :=
  (unfolded.node = node ∧ (unfolded.grew = true → node.isDeferred = false)) ∨
    unfolded.node.effort cost < 2 * rule.elim 0 cost

theorem spends_settled (rule : Option RuleId) (node : Outline) :
    Spends cost rule node (settled node false) :=
  .inl ⟨rfl, by simp [settled]⟩

theorem Spends.effort_le {rule : Option RuleId} {slot : Option Slot} {unfolded : Unfolded}
    (h : Spends cost rule (.blank { slot }) unfolded) :
    unfolded.node.effort cost ≤ 2 * rule.elim 0 cost := by
  rcases h with ⟨hsame, -⟩ | hlt
  · rw [hsame]
    exact Nat.zero_le _
  · exact hlt.le

/-- The same node is unfolded with a cheaper rule. -/
theorem Spends.trans {rule rule' : Option RuleId} {node : Outline} {unfolded : Unfolded}
    (h : Spends cost rule node unfolded) (hcost : rule.elim 0 cost ≤ rule'.elim 0 cost) :
    Spends cost rule' node unfolded := by
  rcases h with hsame | hlt
  · exact .inl hsame
  · exact .inr (by omega)

theorem Spends.settled {rule : Option RuleId} {node : Outline} {unfolded : Unfolded}
    (h : Spends cost rule node unfolded) :
    Spends cost rule node (settled unfolded.node unfolded.grew) := by
  rcases h with ⟨hsame, hgrew⟩ | hlt
  · refine .inl ⟨hsame, ?_⟩
    intro hsettled
    rcases Bool.or_eq_true .. ▸ hsettled with hgrew' | hdeferred
    · exact hgrew hgrew'
    · rw [hsame] at hdeferred
      simpa using hdeferred
  · exact .inr hlt

/-- Unfolding leaves a node alone or puts in what costs less than the rule. -/
theorem unfoldWithin_effort (hprice : language.Priced cost) {fuel : Nat} {scope : Option TypeId}
    {openBlock : Bool} {rule : Option RuleId} {node : Outline} {unfolded : Unfolded}
    (h : language.unfoldWithin fuel scope openBlock rule node = some unfolded) :
    Spends cost rule node unfolded := by
  induction fuel generalizing openBlock rule node unfolded with
  | zero => cases h
  | succ fuel ih =>
      cases rule with
      | none =>
          cases h
          exact .inl ⟨rfl, by simp⟩
      | some id =>
          -- one case for each kind of rule, in the order of the definition
          rw [unfoldWithin] at h
          split at h
          · cases h
            exact .inl ⟨rfl, by simp⟩
          · next hkind =>
              have hpos := hprice.references id _ hkind
              cases h
              exact .inr
                (by simp only [Language.settled, fill, Outline.effort, Option.elim_some]; omega)
          · next free hkind =>
              have hpos := hprice.references id _ hkind
              have hle := effort_fillFree cost language.grammar id free node
              cases h
              exact .inr (by simp only [Language.settled, Option.elim_some]; omega)
          · next children singleToken isError hkind =>
              have hsum := hprice.references id _ hkind
              split at h
              · cases h
                exact spends_settled _ _
              · split at h
                · cases h
                  refine .inr ?_
                  simp only [Language.settled, Outline.effort, totalEffort, Option.elim_some]
                  omega
                · next first rest =>
                    obtain ⟨head, hhead, rfl⟩ := Option.map_eq_some_iff.1 h
                    have heffort := totalEffort_le
                      (.cons (ih hhead).effort_le (@effort_deferRest cost id rest))
                    refine .inr ?_
                    simp only [RuleKind.references] at hsum
                    simp only [Language.settled, Outline.effort, Option.elim_some]
                    omega
          · next branches hkind =>
              have hsum := hprice.references id _ hkind
              obtain ⟨nodes, hnodes, rfl⟩ := Option.map_eq_some_iff.1 h
              have heffort := @totalEffort_le cost _ _ (List.forall₂_map_right_iff.2
                ((mapM_eq_some_iff.1 hnodes).imp fun branch unfolded hunfolded =>
                  (ih hunfolded).effort_le))
              refine .inr ?_
              simp only [RuleKind.references] at hsum
              simp only [Language.settled, Outline.effort, Option.elim_some]
              omega
          · next body keyword hkind =>
              have hpos := hprice.references id _ hkind
              split at h
              · refine (ih h).trans ?_
                cases body with
                | none => exact Nat.zero_le _
                | some body =>
                    exact (hprice.lt_of_mem_references hkind (by simp [RuleKind.references])).le
              · cases h
                refine .inr ?_
                simp only [Language.settled, ofWord, fill, Outline.effort, totalEffort,
                  Option.elim_some]
                omega
          · next wrapping target hkind =>
              refine (ih h).trans ?_
              cases target with
              | none => exact Nat.zero_le _
              | some target =>
                  exact (hprice.lt_of_mem_references hkind (by simp [RuleKind.references])).le
          · next load hkind =>
              have hpos := hprice.references id _ hkind
              split at h
              · split at h
                · cases h
                  exact .inr
                    (by simp only [Language.settled, Outline.effort, Option.elim_some]; omega)
                · cases h
                  exact spends_settled _ _
              · cases h
                exact spends_settled _ _
          · next hkind =>
              split at h
              · next rule hrule =>
                  obtain ⟨type, -, htype⟩ := Option.bind_eq_some_iff.1 hrule
                  split at h
                  · obtain ⟨inner, hinner, rfl⟩ := Option.map_eq_some_iff.1 h
                    exact (ih hinner).settled.trans (hprice.commands id hkind type rule htype).le
                  · cases h
                    exact spends_settled _ _
              · cases h
                exact spends_settled _ _
          · cases h
            exact spends_settled _ _

/-! ### One pass -/

/-- A pass over the parts of a sequence, given what it does to each of them. -/
theorem exists_growParts_eases {query : Query} {limit : Int} {parts : List Outline}
    (ih : ∀ part ∈ parts, ∀ scope index, ∃ growth,
      language.grow query limit scope index part = some growth ∧
        Eases (part.effort cost) (growth.node.effort cost) growth.grew)
    (scope : Option TypeId) (index : Int) :
    ∃ grown, language.growParts query limit scope index parts = some grown ∧
      Eases (totalEffort cost parts) (totalEffort cost grown.parts) grown.grew := by
  induction parts generalizing scope index with
  | nil => exact ⟨_, by rw [growParts], .refl _⟩
  | cons part parts ihparts =>
      by_cases hstop : limit ≤ index
      · exact ⟨_, by rw [growParts, if_pos hstop], .refl _⟩
      · obtain ⟨head, hhead, heases⟩ := ih part (List.mem_cons_self ..) (part.scopeAt scope) index
        obtain ⟨rest, hrest, heasesRest⟩ := ihparts
          (fun other hother => ih other (List.mem_cons_of_mem _ hother)) (part.scopeAt scope)
          head.index
        refine ⟨_, by rw [growParts, if_neg hstop, hhead, Option.bind_some, hrest, Option.map_some],
          ?_⟩
        exact heases.add heasesRest

/-- A pass over the branches of a choice, given what it does to each of them. -/
theorem exists_growBranches_eases {query : Query} {limit : Int} {branches : List Outline}
    (ih : ∀ branch ∈ branches, ∀ scope index, ∃ growth,
      language.grow query limit scope index branch = some growth ∧
        Eases (branch.effort cost) (growth.node.effort cost) growth.grew)
    (scope : Option TypeId) (index : Int) :
    ∃ grown, language.growBranches query limit scope index branches = some grown ∧
      Eases (totalEffort cost branches) (totalEffort cost (grown.map Growth.node))
        (grown.any Growth.grew) := by
  induction branches with
  | nil => exact ⟨_, by rw [growBranches], .refl _⟩
  | cons branch branches ihbranches =>
      obtain ⟨head, hhead, heases⟩ := ih branch (List.mem_cons_self ..) scope index
      obtain ⟨rest, hrest, heasesRest⟩ := ihbranches
        fun other hother => ih other (List.mem_cons_of_mem _ hother)
      refine ⟨_, by rw [growBranches, hhead, Option.bind_some, hrest, Option.map_some], ?_⟩
      exact heases.add heasesRest

section Passes

variable (hdepth : IsDepth language.grammar.rules.size language.Opens depth)
  (hprice : language.Priced cost)
include hdepth hprice

/-- A put off part is unfolded, listed or shown as its placeholder. -/
theorem exists_growDeferred_eases (query : Query) (scope : Option TypeId) (index : Int)
    (mark : Mark) (part : Deferred) :
    ∃ unfolded, language.growDeferred query scope index mark part = some unfolded ∧
      Eases ((Outline.deferred mark part).effort cost) (unfolded.node.effort cost)
        unfolded.grew := by
  cases href : part.reference with
  | some reference =>
      have heffort : (Outline.deferred mark part).effort cost = 1 := by simp [Outline.effort, href]
      by_cases hlists : query.listsNamesAt index = true
      · refine ⟨_, by rw [growDeferred, href, Option.isSome_some, if_pos rfl, if_pos hlists], ?_⟩
        have hnames : (language.listNames scope (.deferred mark part)).effort cost = 0 := by
          simp only [listNames, href, Outline.effort]
          exact totalEffort_nameList cost part.placeholder (language.candidates scope reference)
        rw [heffort, hnames]
        exact ⟨by omega, by simp⟩
      · refine ⟨_, by rw [growDeferred, href, Option.isSome_some, if_pos rfl, if_neg hlists], ?_⟩
        exact ⟨Nat.zero_le _, by simp⟩
  | none =>
      obtain ⟨unfolded, hunfolded⟩ := exists_unfold hdepth scope false part.rule
        (.deferred mark part)
      refine ⟨unfolded, by simp [growDeferred, href, hunfolded], ?_⟩
      have heffort : (Outline.deferred mark part).effort cost = 2 * part.rule.elim 0 cost := by
        simp [Outline.effort, href]
      rcases unfoldWithin_effort hprice hunfolded with ⟨hsame, hgrew⟩ | hlt
      · rw [hsame]
        refine ⟨le_rfl, ?_⟩
        intro htrue
        exact absurd (hgrew htrue) (by simp [isDeferred])
      · rw [heffort]
        exact ⟨hlt.le, fun _ => hlt⟩

/-- A pass over any outline has an outcome, and takes effort off whenever it unfolds something. -/
theorem exists_grow_eases (query : Query) (limit : Int) (outline : Outline) (scope : Option TypeId)
    (index : Int) :
    ∃ growth, language.grow query limit scope index outline = some growth ∧
      Eases (outline.effort cost) (growth.node.effort cost) growth.grew := by
  induction outline generalizing scope index with
  | blank mark => exact ⟨_, by rw [grow], .refl _⟩
  | word mark w => exact ⟨_, by rw [grow], .refl _⟩
  | scope mark type => exact ⟨_, by rw [grow], .refl _⟩
  | deferred mark part =>
      by_cases hmark : mark.complete = true
      · exact ⟨_, by rw [grow, if_pos hmark], .refl _⟩
      · obtain ⟨unfolded, hunfolded, heases⟩ :=
          exists_growDeferred_eases hdepth hprice query scope index mark part
        exact ⟨_, by rw [grow, if_neg hmark, hunfolded, Option.map_some], heases⟩
  | sequence mark info parts ih =>
      by_cases hmark : mark.complete = true
      · exact ⟨_, by rw [grow, if_pos hmark], .refl _⟩
      · obtain ⟨grown, hgrown, heases⟩ := exists_growParts_eases ih scope index
        refine ⟨_, by rw [grow, if_neg hmark, hgrown, Option.map_some], ?_⟩
        obtain ⟨mark', hclose⟩ := closeSequence_eq mark info grown.parts grown.complete limit
        simp only [hclose, Outline.effort]
        exact heases
  | choice mark branches ih =>
      by_cases hmark : mark.complete = true
      · exact ⟨_, by rw [grow, if_pos hmark], .refl _⟩
      · obtain ⟨grown, hgrown, heases⟩ := exists_growBranches_eases ih scope index
        refine ⟨_, by rw [grow, if_neg hmark, hgrown, Option.map_some], ?_⟩
        obtain ⟨mark', hclose⟩ := closeChoice_eq mark (grown.map Growth.node)
        simp only [hclose, Outline.effort]
        exact heases

/-! ### The passes -/

/-- The passes have an outcome if there are more of them than the effort for the outline. -/
theorem exists_settleWithin_of_effort (query : Query) (scope : Option TypeId) (limit : Int)
    {passes : Nat} {outline : Outline} (heffort : outline.effort cost < passes) :
    ∃ outcome, language.settleWithin query scope limit passes outline = some outcome := by
  induction passes generalizing outline with
  | zero => omega
  | succ passes ih =>
      obtain ⟨growth, hgrowth, -, hlighter⟩ :=
        exists_grow_eases hdepth hprice query limit outline scope 0
      rw [settleWithin, hgrowth, Option.bind_some]
      cases hpruned : growth.node.prune query 0 with
      | none => exact ⟨none, rfl⟩
      | some pruned =>
          obtain ⟨-, rfl⟩ := prune_eq_some hpruned
          cases hgrew : growth.grew with
          | false => exact ⟨_, rfl⟩
          | true =>
              -- each further pass is paid for by the effort it takes off
              have hlt := hlighter hgrew
              have hle := effort_retain cost query growth.node 0
              exact ih (by omega)

end Passes

/-! ### The seed -/

theorem totalEffort_append (nodes nodes' : List Outline) :
    totalEffort cost (nodes ++ nodes') = totalEffort cost nodes + totalEffort cost nodes' := by
  induction nodes with
  | nil => simp [totalEffort]
  | cons node nodes ih =>
      rw [List.cons_append, totalEffort, totalEffort, ih]
      omega

theorem effort_offerKeyword (node : Outline) (keyword : String) :
    (offerKeyword node keyword).effort cost = node.effort cost := by
  cases node with
  | choice mark branches =>
      simp [offerKeyword, Outline.effort, totalEffort_append, totalEffort, ofWord, fill]
  | blank | word | deferred | sequence | scope =>
      simp [offerKeyword, Outline.effort, totalEffort, ofWord, fill]

theorem totalEffort_prune_le (cost : RuleId → Nat) (query : Query) (node : Outline) :
    totalEffort cost (node.prune query 0).toList ≤ node.effort cost := by
  have hle := effort_retain cost query node 0
  rw [prune]
  split
  · simpa [totalEffort] using hle
  · exact Nat.zero_le _

section Seed

variable (hdepth : IsDepth language.grammar.rules.size language.Opens depth)
  (hprice : language.Priced cost)
include hdepth hprice

/-- The commands of a block cost no more than its rule. -/
theorem exists_blockNode (scope : Option TypeId) (block : Option RuleId) :
    ∃ node, language.blockNode scope block = some node ∧
      node.effort cost ≤ 2 * block.elim 0 cost := by
  obtain ⟨unfolded, hunfolded⟩ := exists_unfold hdepth scope true block (.blank {})
  have hle := (unfoldWithin_effort hprice hunfolded).effort_le
  refine ⟨_, by rw [blockNode, hunfolded, Option.map_some], ?_⟩
  split
  · rwa [effort_offerKeyword]
  · exact hle

/-- The seed has an outcome, and costs no more than the blocks it starts from. -/
theorem exists_seedBranches (query : Query) (scope : Option TypeId) {bound : Nat}
    (hbound : ∀ id, cost id ≤ bound) (blocks : List (Option RuleId)) :
    ∃ branches, language.seedBranches query scope blocks = some branches ∧
      totalEffort cost branches ≤ blocks.length * (2 * bound) := by
  induction blocks with
  | nil => exact ⟨[], rfl, Nat.zero_le _⟩
  | cons block blocks ih =>
      obtain ⟨rest, hrest, hle⟩ := ih
      obtain ⟨node, hnode, heffort⟩ := exists_blockNode hdepth hprice scope block
      have hblock : block.elim 0 cost ≤ bound := by
        cases block with
        | none => exact Nat.zero_le _
        | some id => exact hbound id
      have hkept := totalEffort_prune_le cost query node
      rw [seedBranches, hnode, Option.bind_some, List.length_cons, Nat.add_mul, Nat.one_mul]
      split
      · refine ⟨_, by rw [hrest, Option.map_some], ?_⟩
        rw [totalEffort_append]
        omega
      · exact ⟨_, rfl, by omega⟩

end Seed

/-- In a language with a depth along all references, the passes have an outcome for every
request. -/
theorem exists_settle_of_isDepth (h : IsDepth language.grammar.rules.size language.Calls depth)
    (query : Query) (scope : Option TypeId) (blocks : List RuleId) (limit : Int) :
    ∃ outcome, language.settle query scope blocks limit = some outcome := by
  have hopens := h.imp fun source target => @Opens.calls language source target
  have hprice := priced_priceAt h
  obtain ⟨branches, hbranches, heffort⟩ := exists_seedBranches hopens hprice query scope
    (fun id => priceAt_le (h.le_size id)) (language.seedBlocks blocks)
  have hlength : (language.seedBlocks blocks).length ≤ blocks.length + 1 := by
    rw [seedBlocks]
    split <;> simp
  rw [settle, seed, hbranches, Option.map_some, Option.bind_some]
  refine exists_settleWithin_of_effort hopens hprice query scope limit ?_
  -- the greatest price is less than the power in the number of passes
  have hpos := priceAt_pos language language.grammar.rules.size
  have hpower : language.priceAt language.grammar.rules.size <
      (language.grammar.width + 2) ^ (language.grammar.rules.size + 2) :=
    Nat.pow_lt_pow_right (by omega) (by omega)
  calc (Outline.choice {} branches).effort (fun id => language.priceAt (depth id))
      ≤ (language.seedBlocks blocks).length *
          (2 * language.priceAt language.grammar.rules.size) := heffort
    _ ≤ (blocks.length + 1) * (2 * language.priceAt language.grammar.rules.size) :=
        Nat.mul_le_mul_right _ hlength
    _ = 2 * (blocks.length + 1) * language.priceAt language.grammar.rules.size := by
        rw [Nat.mul_left_comm, Nat.mul_assoc]
    _ < 2 * (blocks.length + 1) *
          (language.grammar.width + 2) ^ (language.grammar.rules.size + 2) :=
        Nat.mul_lt_mul_of_pos_left hpower (by omega)
    _ ≤ language.passBudget query blocks limit := Nat.mul_le_mul_left _ (Nat.le_add_right ..)

/-! ### Answers -/

/-- In a language in which a rank falls from rule to rule, unfolding a rule ends, the passes come to
a last one within the number allowed, and every request has an answer. -/
theorem answers_of_ranked (h : language.Ranked rank) :
    (∀ scope openBlock rule node, ∃ unfolded,
      language.unfold scope openBlock rule node = some unfolded) ∧
    (∀ query scope blocks limit, language.Ends query scope blocks limit ∧
      ∃ outcome, language.settle query scope blocks limit = some outcome) ∧
    ∀ files request, (∃ completion, language.suggest files request = some completion) ∧
      ∃ hint, language.hint request = some hint := by
  obtain ⟨depth, hdepth⟩ := h.exists_isDepth
  have hsettle := exists_settle_of_isDepth hdepth
  refine ⟨?_, ?_, ?_⟩
  · intro scope openBlock rule node
    exact exists_unfold (hdepth.imp fun _ _ => Opens.calls) scope openBlock rule node
  · intro query scope blocks limit
    obtain ⟨outcome, houtcome⟩ := hsettle query scope blocks limit
    exact ⟨ends_of_settle houtcome, outcome, houtcome⟩
  · intro files request
    exact exists_answers hsettle files request

/-! ### Commands that lead to the commands of a type -/

/-- Rules are ranked by their places if every reference leads to an earlier place, and the rules of
all types stand before the commands of the current type. -/
theorem ranked_index
    (hreferences : ∀ entry ∈ language.grammar.allReferences, entry.2.index < entry.1.index)
    (hcommands : ∀ entry ∈ language.grammar.rules.toList.zipIdx, entry.1.kind = .typeCommand →
      ∀ info ∈ language.types.types.toList, ∀ rule ∈ info.rule, rule.index < entry.2) :
    language.Ranked RuleId.index where
  references id kind hkind target htarget :=
    hreferences (id, target) (Grammar.mem_allReferences.2 ⟨kind, hkind, htarget⟩)
  commands id hkind type rule hrule := by
    obtain ⟨entry, hentry, hcommand⟩ := Option.map_eq_some_iff.1 hkind
    obtain ⟨info, hinfo, hrule⟩ := Option.bind_eq_some_iff.1 hrule
    have hmem : (entry, id.index) ∈ language.grammar.rules.toList.zipIdx :=
      List.mk_mem_zipIdx_iff_getElem?.2 (by simpa using hentry)
    exact hcommands _ hmem hcommand info (Array.mem_toList_iff.2 (Array.mem_of_getElem? hinfo)) rule
      hrule

/-- A language with a block of commands `edit`, each followed by a command of the current type; the
type at place 2 has the command `speed` with a known name. -/
def editLanguage : Language where
  grammar :=
    { rules := #[⟨.leaf (.literal "speed"), none⟩,
        ⟨.freeWord { kind := "gear", isKnownName := true }, none⟩,
        ⟨.sequence [⟨0⟩, ⟨1⟩] false false, none⟩, ⟨.leaf (.literal "edit"), none⟩,
        ⟨.typeCommand, none⟩, ⟨.sequence [⟨3⟩, ⟨4⟩] false false, none⟩,
        ⟨.block (some ⟨5⟩) "end_edit", none⟩]
      root := some ⟨6⟩ }
  types := (({} : TypeTable).add "platform" none).setRule ⟨2⟩ ⟨2⟩

/-- Behind `edit speed` there is an answer, and there is a hint. -/
theorem answers_of_ranked_editLanguage :
    editLanguage.Ranked RuleId.index ∧
      (∃ completion, editLanguage.suggest {} (.atEnd "edit speed " [⟨6⟩] (some ⟨2⟩)) =
        some completion) ∧
      ∃ hint, editLanguage.hint (.atEnd "edit speed " [⟨6⟩] (some ⟨2⟩)) = some hint := by
  have hranked : editLanguage.Ranked RuleId.index := ranked_index (by decide) (by decide)
  exact ⟨hranked, (answers_of_ranked hranked).2.2 {} (.atEnd "edit speed " [⟨6⟩] (some ⟨2⟩))⟩

end Language

end Typeahead
