/-
When unfolding and the passes come to an end.

Unfolding a rule goes on with other rules: the first part of a sequence, every branch of a choice,
the body of a block, what a wrapper stands for, and the rule of the current type.  If no rule is
reached from itself in this way, then unfolding ends, and it goes no deeper than there are
rules.  The passes end with one that unfolds nothing or after which nothing is left, and as soon as
they do, both kinds of request have an answer.

Main definitions:

* `Typeahead.RuleKind.leading` — the rules that unfolding a rule goes on with;
* `Typeahead.Language.Opens`, `Typeahead.Language.Calls` — unfolding a rule, or a part of it, may go
  on with another rule;
* `Typeahead.IsDepth` — a depth for every rule that falls along a relation;
* `Typeahead.Language.Ends` — the passes come to a last one.

Main results:

* `Typeahead.exists_isDepth` — a relation without cycles has a depth;
* `Typeahead.Language.exists_unfold` — unfolding ends if no rule opens itself again;
* `Typeahead.Language.ends_of_settle` — an outcome of the passes comes from a last pass.
-/

import Typeahead.Proofs.Unfolding
import Typeahead.Proofs.WordCounts

set_option relaxedAutoImplicit false
set_option autoImplicit false

namespace Typeahead

/-! ### Depths -/

/-- The rules that unfolding a rule of this kind goes on with. -/
def RuleKind.leading : RuleKind → List RuleId
  | .sequence children _ _ => children.take 1
  | kind => kind.references

theorem RuleKind.mem_references_of_mem_leading {kind : RuleKind} {target : RuleId}
    (h : target ∈ kind.leading) : target ∈ kind.references := by
  cases kind with
  | sequence children singleToken isError => exact List.mem_of_mem_take h
  | leaf | freeWord | choice | block | wrapper | typeLoad | typeCommand | unknown => exact h

namespace Language

/-- Unfolding the rule `source` goes on with the rule `target`. -/
def Opens (language : Language) (source target : RuleId) : Prop :=
  ∃ kind, language.grammar.kind? source = some kind ∧
    (target ∈ kind.leading ∨
      kind = .typeCommand ∧ ∃ type, language.types.rule? type = some target)

/-- The rule `source` refers to the rule `target`, or stands for the commands of a type with this
rule. -/
def Calls (language : Language) (source target : RuleId) : Prop :=
  ∃ kind, language.grammar.kind? source = some kind ∧
    (target ∈ kind.references ∨
      kind = .typeCommand ∧ ∃ type, language.types.rule? type = some target)

theorem Opens.calls {language : Language} {source target : RuleId}
    (h : language.Opens source target) : language.Calls source target := by
  obtain ⟨kind, hkind, hleading | hcommand⟩ := h
  · exact ⟨kind, hkind, .inl (RuleKind.mem_references_of_mem_leading hleading)⟩
  · exact ⟨kind, hkind, .inr hcommand⟩

end Language

/-- A depth for the rules of a table: no depth is greater than the table, the rules in the table
have some depth, and the depth falls along the relation. -/
structure IsDepth (size : Nat) (R : RuleId → RuleId → Prop) (depth : RuleId → Nat) : Prop where
  le_size : ∀ id, depth id ≤ size
  pos : ∀ id : RuleId, id.index < size → 0 < depth id
  falls : ∀ source target, R source target → depth target < depth source

theorem IsDepth.imp {size : Nat} {R S : RuleId → RuleId → Prop} {depth : RuleId → Nat}
    (h : IsDepth size R depth) (himp : ∀ source target, S source target → R source target) :
    IsDepth size S depth where
  le_size := h.le_size
  pos := h.pos
  falls source target hsource := h.falls source target (himp source target hsource)

/-- A relation without cycles that only leads out of the rules of a table has a depth. -/
theorem exists_isDepth {size : Nat} {R : RuleId → RuleId → Prop}
    (hsource : ∀ source target, R source target → source.index < size)
    (hacyclic : ∀ id, ¬ Relation.TransGen R id id) : ∃ depth, IsDepth size R depth := by
  classical
  -- the places of the table that are reached in at least one step
  let below : RuleId → Finset Nat := fun id =>
    (Finset.range size).filter fun index => Relation.TransGen R id ⟨index⟩
  have hmem : ∀ id index, index ∈ below id ↔ index < size ∧ Relation.TransGen R id ⟨index⟩ := by
    intro id index
    simp only [below, Finset.mem_filter, Finset.mem_range]
  have hcard : ∀ id : RuleId, id.index < size → (below id).card < size := by
    intro id hid
    have hsub : below id ⊆ Finset.range size := Finset.filter_subset _ _
    have hnot : id.index ∉ below id := by
      intro hin
      exact hacyclic id ((hmem id _).1 hin).2
    have hlt := Finset.card_lt_card ((Finset.ssubset_iff_of_subset hsub).2
      ⟨id.index, Finset.mem_range.2 hid, hnot⟩)
    rwa [Finset.card_range] at hlt
  refine ⟨fun id => if id.index < size then (below id).card + 1 else 0, ?_, ?_, ?_⟩
  · intro id
    split
    · next hid =>
        have := hcard id hid
        omega
    · omega
  · intro id hid
    rw [if_pos hid]
    omega
  · intro source target hstep
    have hin := hsource source target hstep
    rw [if_pos hin]
    split
    · next htarget =>
        have hsub : below target ⊆ below source := by
          intro index hindex
          obtain ⟨hlt, hreach⟩ := (hmem target index).1 hindex
          exact (hmem source index).2 ⟨hlt, hreach.head hstep⟩
        have hnot : target.index ∉ below target := by
          intro hself
          exact hacyclic target ((hmem target _).1 hself).2
        have hlt := Finset.card_lt_card ((Finset.ssubset_iff_of_subset hsub).2
          ⟨target.index, (hmem source _).2 ⟨htarget, .single hstep⟩, hnot⟩)
        omega
    · omega

namespace Language

open Outline

variable {language : Language} {depth : RuleId → Nat}

theorem Calls.index_lt {source target : RuleId} (h : language.Calls source target) :
    source.index < language.grammar.rules.size := by
  obtain ⟨kind, hkind, -⟩ := h
  exact Grammar.index_lt_of_kind hkind

/-! ### Unfolding ends -/

/-- Unfolding ends if there is more fuel than the rule is deep. -/
theorem exists_unfoldWithin
    (hdepth : IsDepth language.grammar.rules.size language.Opens depth) {fuel : Nat}
    {rule : Option RuleId} (hfuel : rule.elim 0 depth < fuel) (scope : Option TypeId)
    (openBlock : Bool) (node : Outline) :
    ∃ unfolded, language.unfoldWithin fuel scope openBlock rule node = some unfolded := by
  induction fuel generalizing rule openBlock node with
  | zero => omega
  | succ fuel ih =>
      cases rule with
      | none => exact ⟨_, rfl⟩
      | some id =>
          rw [Option.elim_some] at hfuel
          cases hkind : language.grammar.kind? id with
          | none => exact ⟨_, by simp only [unfoldWithin, hkind]; rfl⟩
          | some kind =>
              have hpos := hdepth.pos id (Grammar.index_lt_of_kind hkind)
              -- every rule that comes next is less deep, and a missing one needs a little fuel only
              have hbelow : ∀ target ∈ kind.leading, depth target < fuel := by
                intro target htarget
                have := hdepth.falls id target ⟨kind, hkind, .inl htarget⟩
                omega
              have hoption : ∀ target : Option RuleId, target.toList ⊆ kind.leading →
                  target.elim 0 depth < fuel := by
                intro target htarget
                cases target with
                | none =>
                    rw [Option.elim_none]
                    omega
                | some target => exact hbelow target (htarget (by simp))
              cases kind with
              | leaf leaf => exact ⟨_, by simp only [unfoldWithin, hkind]; rfl⟩
              | freeWord free => exact ⟨_, by simp only [unfoldWithin, hkind]; rfl⟩
              | sequence children singleToken isError =>
                  cases isError with
                  | true => exact ⟨_, by simp only [unfoldWithin, hkind]; rfl⟩
                  | false =>
                      cases children with
                      | nil => exact ⟨_, by simp only [unfoldWithin, hkind]; rfl⟩
                      | cons first rest =>
                          have hfirst : (some first).elim 0 depth < fuel :=
                            hbelow first (by simp [RuleKind.leading])
                          obtain ⟨head, hhead⟩ := ih hfirst false (.blank { slot := some ⟨id, 0⟩ })
                          exact ⟨_, by simp only [unfoldWithin, hkind, hhead]; rfl⟩
              | choice branches =>
                  have hbranches : ∀ branch ∈ branches, ∃ unfolded,
                      language.unfoldWithin fuel scope false (some branch) (.blank {}) =
                        some unfolded ∧ True := by
                    intro branch hbranch
                    have hlt : (some branch).elim 0 depth < fuel := hbelow branch hbranch
                    obtain ⟨unfolded, hunfolded⟩ := ih hlt false (.blank {})
                    exact ⟨unfolded, hunfolded, trivial⟩
                  obtain ⟨unfolded, hunfolded, -⟩ := exists_mapM_eq_some hbranches
                  exact ⟨_, by simp only [unfoldWithin, hkind, hunfolded]; rfl⟩
              | block body keyword =>
                  cases openBlock with
                  | false => exact ⟨_, by simp only [unfoldWithin, hkind]; rfl⟩
                  | true =>
                      obtain ⟨unfolded, hunfolded⟩ := ih (hoption body (List.Subset.refl _)) true
                        node
                      exact ⟨unfolded, by simp only [unfoldWithin, hkind, hunfolded, if_true]⟩
              | wrapper wrapping target =>
                  obtain ⟨unfolded, hunfolded⟩ := ih (hoption target (List.Subset.refl _)) openBlock
                    node
                  exact ⟨unfolded, by simp only [unfoldWithin, hkind, hunfolded]⟩
              | typeLoad load =>
                  simp only [unfoldWithin, hkind]
                  split
                  · split <;> exact ⟨_, rfl⟩
                  · exact ⟨_, rfl⟩
              | typeCommand =>
                  simp only [unfoldWithin, hkind]
                  split
                  · next rule hrule =>
                      obtain ⟨type, -, htype⟩ := Option.bind_eq_some_iff.1 hrule
                      have hlt := hdepth.falls id rule ⟨_, hkind, .inr ⟨rfl, type, htype⟩⟩
                      have hfuel' : (some rule).elim 0 depth < fuel := by
                        rw [Option.elim_some]
                        omega
                      obtain ⟨unfolded, hunfolded⟩ := ih hfuel' false node
                      rw [hunfolded]
                      split <;> exact ⟨_, rfl⟩
                  · exact ⟨_, rfl⟩
              | unknown label => exact ⟨_, by simp only [unfoldWithin, hkind]; rfl⟩

/-- Unfolding ends if no rule opens itself again. -/
theorem exists_unfold (hdepth : IsDepth language.grammar.rules.size language.Opens depth)
    (scope : Option TypeId) (openBlock : Bool) (rule : Option RuleId) (node : Outline) :
    ∃ unfolded, language.unfold scope openBlock rule node = some unfolded := by
  have hle : rule.elim 0 depth ≤ language.grammar.rules.size := by
    cases rule with
    | none => exact Nat.zero_le _
    | some id => exact hdepth.le_size id
  exact exists_unfoldWithin hdepth (by rw [unfoldFuel]; omega) scope openBlock node

/-! ### The last pass -/

variable {query : Query} {scope : Option TypeId} {blocks : List RuleId} {limit : Int}

/-- The passes come to a last one: it unfolds nothing, or nothing is left after it. -/
def Ends (language : Language) (query : Query) (scope : Option TypeId) (blocks : List RuleId)
    (limit : Int) : Prop :=
  ∃ outline growth, language.Reached query scope blocks limit outline ∧
    language.grow query limit scope 0 outline = some growth ∧
    (growth.grew = false ∨ growth.node.prune query 0 = none)

theorem Reached.ends {passes : Nat} {outline : Outline} {outcome : Option Outline}
    (h : language.Reached query scope blocks limit outline)
    (hsettled : language.settleWithin query scope limit passes outline = some outcome) :
    language.Ends query scope blocks limit := by
  induction passes generalizing outline with
  | zero => cases hsettled
  | succ passes ih =>
      obtain ⟨growth, hgrowth, hsettled⟩ := Option.bind_eq_some_iff.1 hsettled
      split at hsettled
      · next hpruned => exact ⟨outline, growth, h, hgrowth, .inr hpruned⟩
      · next pruned hpruned =>
          split at hsettled
          · exact ih (h.round hgrowth hpruned) hsettled
          · next hgrew => exact ⟨outline, growth, h, hgrowth, .inl (by simpa using hgrew)⟩

/-- An outcome of the passes comes from a last pass. -/
theorem ends_of_settle {outcome : Option Outline}
    (h : language.settle query scope blocks limit = some outcome) :
    language.Ends query scope blocks limit := by
  obtain ⟨outline, hseed, hsettled⟩ := Option.bind_eq_some_iff.1 h
  exact (Reached.seed hseed).ends hsettled

/-- Where the passes always have an outcome, every request has an answer. -/
theorem exists_answers
    (h : ∀ query scope blocks limit, ∃ outcome,
      language.settle query scope blocks limit = some outcome)
    (files : FileTree) (request : Request) :
    (∃ completion, language.suggest files request = some completion) ∧
      ∃ hint, language.hint request = some hint := by
  constructor
  · simp only [suggest]
    split
    · exact ⟨_, rfl⟩
    · obtain ⟨outcome, houtcome⟩ := h
        (Reading.ofText request.text request.cursor .suggest
          language.settings.includeCommands).query request.scope request.blocks
        (Reading.ofText request.text request.cursor .suggest
          language.settings.includeCommands).query.words.length
      rw [houtcome]
      exact ⟨_, rfl⟩
  · obtain ⟨outcome, houtcome⟩ := h
      (Reading.ofText request.text request.cursor .hint
        language.settings.includeCommands).query.pastCommand request.scope request.blocks
      language.settings.maxHintWords
    simp only [hint, houtcome]
    exact ⟨_, rfl⟩

end Language

end Typeahead
