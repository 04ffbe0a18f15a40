/-
Recursion at the end of sequences.

A command language may repeat itself behind a word: an item and then more items.  Such a language
unfolds into an outline without end, and only the limit on the words to look at stops the
passes.  It does so because all parts before the last of a sequence are single words: then every
part that is put off has a known place, and a pass replaces those at the first place by parts that
wait further on.  After as many passes as there are words to look at, nothing is left to unfold.

Main definitions:

* `Typeahead.Grammar.RightRecursive` — rules in which only the last part of a sequence may be more
  than a word, and no rule opens itself again without a word in between;
* `Typeahead.Outline.Waits` — whatever is put off waits at or after a place.

Main results:

* `Typeahead.Language.unfoldWithin_waits` — what a rule unfolds into waits behind its first word;
* `Typeahead.Language.exists_grow_waits` — a pass moves the first waiting part on by a place;
* `Typeahead.Language.answers_of_rightRecursive` — the passes end, no later than at the limit.
-/

import Typeahead.Proofs.Layered
import Typeahead.Proofs.PlainGrowth
import Typeahead.Proofs.Termination

set_option relaxedAutoImplicit false
set_option autoImplicit false

namespace Typeahead

/-! ### Rules with single words before their ends -/

/-- The rules that always describe one word, and for which nothing has to be looked up. -/
def RuleKind.isSingleWord : RuleKind → Bool
  | .leaf _ => true
  | .freeWord free => !free.refersToType && !free.isKnownName && !free.namesType
  | _ => false

/-- The rules that have nothing to do with types: single words, and combinations of other rules. -/
def RuleKind.isUntyped : RuleKind → Bool
  | .sequence .. | .choice .. | .block .. | .wrapper .. => true
  | kind => kind.isSingleWord

namespace Grammar

/-- Unfolding the rule `source` goes on with the rule `target`, which it refers to. -/
def Leads (grammar : Grammar) (source target : RuleId) : Prop :=
  ∃ kind, grammar.kind? source = some kind ∧ target ∈ kind.leading

/-- All children but the last are rules for single words. -/
def SingleUpToLast (grammar : Grammar) (children : List RuleId) : Prop :=
  ∀ child ∈ children.dropLast, ∃ kind, grammar.kind? child = some kind ∧ kind.isSingleWord = true

/-- The rules have nothing to do with types, all parts of a sequence but the last are single words,
and no rule leads to itself. -/
structure RightRecursive (grammar : Grammar) : Prop where
  untyped : ∀ id kind, grammar.kind? id = some kind → kind.isUntyped = true
  single : ∀ id children singleToken isError,
    grammar.kind? id = some (.sequence children singleToken isError) →
      grammar.SingleUpToLast children
  acyclic : ∀ id, ¬ Relation.TransGen grammar.Leads id id

variable {grammar : Grammar}

theorem singleUpToLast_cons {child : RuleId} {children : List RuleId} :
    grammar.SingleUpToLast (child :: children) ↔
      (children ≠ [] → ∃ kind, grammar.kind? child = some kind ∧ kind.isSingleWord = true) ∧
        grammar.SingleUpToLast children :=
  forall_mem_dropLast_cons

/-- No load takes its type from the word at a slot if no load of the sequence names the slot. -/
theorem loadFrom?_eq_none {slot : Slot}
    (h : ∀ children singleToken isError,
      grammar.kind? slot.sequence = some (.sequence children singleToken isError) →
      ∀ child ∈ children, ∀ load, grammar.kind? child = some (.typeLoad load) →
        load.ordinal ≠ some slot.index) : grammar.loadFrom? slot = none := by
  rw [loadFrom?, Option.filter_eq_none_iff]
  intro load hload
  rw [followingLoad?] at hload
  split at hload
  · next children singleToken isError hkind =>
      obtain ⟨child, hchild, hload⟩ := List.exists_of_findSome?_eq_some hload
      split at hload
      · next hkindChild =>
          cases hload
          simpa using h children singleToken isError hkind child (List.mem_of_mem_drop hchild) load
            hkindChild
      · cases hload
  · cases hload

theorem RightRecursive.loadFrom?_eq_none (h : grammar.RightRecursive) (slot : Slot) :
    grammar.loadFrom? slot = none := by
  refine Grammar.loadFrom?_eq_none ?_
  intro children singleToken isError _ child _ load hkind
  exact absurd (h.untyped child _ hkind) (by simp [RuleKind.isUntyped, RuleKind.isSingleWord])

end Grammar

theorem Grammar.RightRecursive.exists_isDepth {language : Language}
    (h : language.grammar.RightRecursive) :
    ∃ depth, IsDepth language.grammar.rules.size language.Opens depth := by
  have hleads : ∀ source target, language.Opens source target →
      language.grammar.Leads source target := by
    rintro source target ⟨kind, hkind, hleading | ⟨rfl, -⟩⟩
    · exact ⟨kind, hkind, hleading⟩
    · exact absurd (h.untyped source _ hkind) (by simp [RuleKind.isUntyped, RuleKind.isSingleWord])
  refine Typeahead.exists_isDepth (fun source target hstep => hstep.calls.index_lt) ?_
  intro id hcycle
  exact h.acyclic id (Relation.TransGen.mono hleads id id hcycle)

/-! ### Waiting -/

namespace Outline

/-- The node is one word, or a rule for a single word that is put off. -/
def IsOneWord (grammar : Grammar) : Outline → Prop
  | .word mark _ => mark.complete = true → mark.wordCount = 1
  | .deferred mark part => mark.complete = false ∧ part.reference = none ∧
      ∃ id kind, part.rule = some id ∧ grammar.kind? id = some kind ∧ kind.isSingleWord = true
  | _ => False

section Waits

variable (language : Language) (scope : Option TypeId) (bound : Nat)

mutual

/-- What is put off in a node that starts at a place stands at `bound` or later, unless it cannot be
unfolded.  A complete node is not looked into, and no type is brought into play. -/
def Waits : Nat → Outline → Prop
  | _, .blank _ | _, .word _ _ => True
  | place, .deferred mark part => mark.complete = false ∧ part.reference = none ∧
      (bound ≤ place ∨ language.unfold scope false part.rule (.deferred mark part) =
        some ⟨.deferred mark part, false⟩)
  | place, .sequence mark _ parts => mark.complete = false → PartsWait place parts
  | place, .choice mark branches => mark.complete = false → BranchesWait place branches
  | _, .scope _ _ => False

/-- The parts of a sequence wait, each one place after the one before it. -/
def PartsWait : Nat → List Outline → Prop
  | _, [] => True
  | place, part :: parts =>
      Waits place part ∧ (parts ≠ [] → part.IsOneWord language.grammar) ∧
        PartsWait (place + 1) parts

/-- All branches of a choice wait. -/
def BranchesWait : Nat → List Outline → Prop
  | _, [] => True
  | place, branch :: branches => Waits place branch ∧ BranchesWait place branches

end

end Waits

variable {language : Language} {scope : Option TypeId} {bound place : Nat}

theorem branchesWait_iff {branches : List Outline} :
    BranchesWait language scope bound place branches ↔
      ∀ branch ∈ branches, branch.Waits language scope bound place := by
  induction branches with
  | nil => simp [BranchesWait]
  | cons branch branches ih => simp [BranchesWait, ih]

/-- The bound may be moved down, or up to the place of the node. -/
theorem Waits.move {outline : Outline} {bound' : Nat} (h : outline.Waits language scope bound place)
    (hbound : bound' ≤ max bound place) : outline.Waits language scope bound' place := by
  induction outline generalizing place with
  | blank mark => trivial
  | word mark w => trivial
  | scope mark type => exact h
  | deferred mark part =>
      obtain ⟨hmark, href, hwaits | hidle⟩ := h
      · exact ⟨hmark, href, .inl (by omega)⟩
      · exact ⟨hmark, href, .inr hidle⟩
  | choice mark branches ih =>
      intro hmark
      apply branchesWait_iff.2
      intro branch hbranch
      exact ih branch hbranch (branchesWait_iff.1 (h hmark) branch hbranch) hbound
  | sequence mark info parts ih =>
      intro hmark
      have hparts := h hmark
      clear h
      induction parts generalizing place with
      | nil => trivial
      | cons part parts ihparts =>
          obtain ⟨hpart, hword, hrest⟩ := hparts
          refine ⟨ih part (List.mem_cons_self ..) hpart hbound, hword, ?_⟩
          exact ihparts (fun other hother => ih other (List.mem_cons_of_mem _ hother)) (by omega)
            hrest

/-! ### Pruning -/

theorem IsOneWord.retain {grammar : Grammar} {part : Outline} (h : part.IsOneWord grammar)
    (query : Query) (start : Nat) : (part.retain query start).value = part := by
  cases part with
  | word mark w => rfl
  | deferred mark part => rfl
  | blank | sequence | choice | scope => exact h.elim

theorem retainParts_wait {query : Query} {parts : List Outline}
    (ih : ∀ part ∈ parts, ∀ place start, part.Waits language scope bound place →
      (part.retain query start).value.Waits language scope bound place)
    (h : PartsWait language scope bound place parts) (start : Nat) :
    PartsWait language scope bound place (retainParts query start parts).value := by
  induction parts generalizing place start with
  | nil => trivial
  | cons part parts ihparts =>
      obtain ⟨hpart, hword, hrest⟩ := h
      have hkept := ih part (List.mem_cons_self ..) place start hpart
      have hone : parts ≠ [] → (part.retain query start).value.IsOneWord language.grammar := by
        intro hparts
        rw [(hword hparts).retain]
        exact hword hparts
      rw [retainParts]
      split
      · exact ⟨hkept, hone, hrest⟩
      · split
        · exact ⟨hkept, hone, hrest⟩
        · refine ⟨hkept, ?_, ihparts (fun other hother => ih other (List.mem_cons_of_mem _ hother))
            hrest _⟩
          intro hvalue
          refine hone ?_
          rintro rfl
          exact hvalue rfl

/-- Pruning does not move what waits. -/
theorem retain_waits {outline : Outline} (query : Query)
    (h : outline.Waits language scope bound place)
    (start : Nat) : (outline.retain query start).value.Waits language scope bound place := by
  induction outline generalizing place start with
  | blank mark => exact h
  | word mark w => exact h
  | deferred mark part => exact h
  | scope mark type => exact h
  | choice mark branches ih =>
      rw [retain]
      split
      · exact h
      · intro hmark
        apply branchesWait_iff.2
        intro branch' hmem
        obtain ⟨branch, hbranch, -, rfl⟩ := mem_retainBranches.1 hmem
        exact ih branch hbranch (branchesWait_iff.1 (h hmark) branch hbranch) start
  | sequence mark info parts ih =>
      rw [retain]
      split
      · exact h
      · intro hmark
        exact retainParts_wait (fun part hpart place start hwaits => ih part hpart hwaits start)
          (h hmark) start

end Outline

namespace Language

open Outline

variable {language : Language} {scope : Option TypeId} {bound place : Nat}

/-! ### Unfolding -/

/-- The later parts of a sequence wait where they stand. -/
theorem partsWait_deferred {children : List RuleId}
    (hsingle : language.grammar.SingleUpToLast children) (hbound : bound ≤ place) (id : RuleId)
    (index : Nat) :
    PartsWait language scope bound place ((children.zipIdx index).map fun entry =>
      Outline.ofRule entry.1 (some ⟨id, entry.2⟩)) := by
  induction children generalizing place index with
  | nil => trivial
  | cons child children ih =>
      obtain ⟨hfirst, hothers⟩ := Grammar.singleUpToLast_cons.1 hsingle
      rw [List.zipIdx_cons, List.map_cons]
      refine ⟨⟨rfl, rfl, .inl hbound⟩, ?_, ?_⟩
      · intro hmore
        have hchildren : children ≠ [] := by
          rintro rfl
          exact hmore rfl
        obtain ⟨kind, hkind, hword⟩ := hfirst hchildren
        exact ⟨rfl, rfl, child, kind, rfl, hkind, hword⟩
      · exact ih hothers (by omega) (index + 1)

/-- What unfolding comes to in terms of waiting: the node is left alone, and a put off node then
counts as not unfolded, or all that is put off now waits behind a word. -/
def MovesOn (language : Language) (scope : Option TypeId) (node : Outline) (unfolded : Unfolded) :
    Prop :=
  (unfolded.node = node ∧ (unfolded.grew = true → node.isDeferred = false)) ∨
    ∀ place, unfolded.node.Waits language scope (place + 1) place

theorem MovesOn.waits {slot : Option Slot} {unfolded : Unfolded}
    (h : MovesOn language scope (.blank { slot }) unfolded) (place : Nat) :
    unfolded.node.Waits language scope (place + 1) place := by
  rcases h with ⟨hsame, -⟩ | hwaits
  · rw [hsame]
    trivial
  · exact hwaits place

section RightRecursive

variable (hg : language.grammar.RightRecursive)
include hg

/-- A rule for a single word puts the word into the node. -/
theorem unfoldWithin_single {id : RuleId} {kind : RuleKind}
    (hkind : language.grammar.kind? id = some kind) (hsingle : kind.isSingleWord = true)
    {fuel : Nat}
    {openBlock : Bool} {node : Outline} (href : node.reference? = none) {unfolded : Unfolded}
    (h : language.unfoldWithin fuel scope openBlock (some id) node = some unfolded) :
    ∃ w, unfolded = ⟨node.fill w, true⟩ := by
  cases fuel with
  | zero => cases h
  | succ fuel =>
      cases kind with
      | leaf leaf =>
          simp only [unfoldWithin, hkind] at h
          cases h
          exact ⟨_, rfl⟩
      | freeWord free =>
          simp only [RuleKind.isSingleWord, Bool.and_eq_true, Bool.not_eq_true'] at hsingle
          obtain ⟨⟨htype, hname⟩, -⟩ := hsingle
          have hload : node.mark.slot.bind language.grammar.loadFrom? = none := by
            rw [Option.bind_eq_none_iff]
            intro slot _
            exact hg.loadFrom?_eq_none slot
          simp only [unfoldWithin, hkind, fillFree_eq_fill hload href htype hname] at h
          cases h
          exact ⟨.pattern free.placeholder, by simp [settled, fill, isDeferred]⟩
      | sequence | choice | block | wrapper | typeLoad | typeCommand | unknown =>
          simp [RuleKind.isSingleWord] at hsingle

/-- What a rule unfolds into waits behind its first word. -/
theorem unfoldWithin_waits {fuel : Nat} {openBlock : Bool} {rule : Option RuleId} {node : Outline}
    (href : node.reference? = none) {unfolded : Unfolded}
    (h : language.unfoldWithin fuel scope openBlock rule node = some unfolded) :
    MovesOn language scope node unfolded := by
  induction fuel generalizing openBlock rule node unfolded with
  | zero => cases h
  | succ fuel ih =>
      cases rule with
      | none =>
          cases h
          exact .inl ⟨rfl, by simp⟩
      | some id =>
          cases hkind : language.grammar.kind? id with
          | none =>
              simp only [unfoldWithin, hkind] at h
              cases h
              exact .inl ⟨rfl, by simp⟩
          | some kind =>
              have hword : kind.isSingleWord = true → MovesOn language scope node unfolded := by
                intro hsingle
                obtain ⟨w, rfl⟩ := unfoldWithin_single hg hkind hsingle href h
                exact .inr fun _ => trivial
              have huntyped := hg.untyped id kind hkind
              cases kind with
              | leaf leaf => exact hword rfl
              | freeWord free => exact hword huntyped
              | sequence children singleToken isError =>
                  simp only [unfoldWithin, hkind] at h
                  split at h
                  · cases h
                    exact .inl ⟨rfl, by simp [settled]⟩
                  · split at h
                    · cases h
                      exact .inr fun _ _ => trivial
                    · next first rest =>
                        obtain ⟨hsingle, hothers⟩ := Grammar.singleUpToLast_cons.1
                          (hg.single id (first :: rest) singleToken isError hkind)
                        obtain ⟨head, hhead, rfl⟩ := Option.map_eq_some_iff.1 h
                        refine .inr fun place _ => ⟨(ih rfl hhead).waits place, ?_, ?_⟩
                        · intro hmore
                          have hrest : rest ≠ [] := by
                            rintro rfl
                            exact hmore rfl
                          obtain ⟨kind, hfirst, hword⟩ := hsingle hrest
                          obtain ⟨w, rfl⟩ := unfoldWithin_single hg hfirst hword rfl hhead
                          exact fun _ => rfl
                        · exact partsWait_deferred hothers le_rfl id 1
              | choice branches =>
                  simp only [unfoldWithin, hkind] at h
                  obtain ⟨nodes, hnodes, rfl⟩ := Option.map_eq_some_iff.1 h
                  refine .inr fun place _ => branchesWait_iff.2 ?_
                  intro node' hnode'
                  obtain ⟨unfolded, hunfolded, rfl⟩ := List.mem_map.1 hnode'
                  obtain ⟨branch, -, hbranch⟩ :=
                    exists_left_of_forall₂ (mapM_eq_some_iff.1 hnodes) unfolded hunfolded
                  exact (ih rfl hbranch).waits place
              | block body keyword =>
                  simp only [unfoldWithin, hkind] at h
                  split at h
                  · exact ih href h
                  · cases h
                    exact .inr fun _ _ => ⟨trivial, fun hnil => absurd rfl hnil, trivial⟩
              | wrapper wrapping target =>
                  simp only [unfoldWithin, hkind] at h
                  exact ih href h
              | typeLoad | typeCommand | unknown =>
                  simp [RuleKind.isUntyped, RuleKind.isSingleWord] at huntyped

/-! ### One pass -/

variable {depth : RuleId → Nat} (hdepth : IsDepth language.grammar.rules.size language.Opens depth)
  {query : Query} {limit : Int}

/-- A single word is passed, and it stays a single word. -/
theorem grow_isOneWord {part : Outline} (hpart : part.IsOneWord language.grammar) {growth : Growth}
    (h : language.grow query limit scope place part = some growth) :
    growth.index = (place + 1 : Nat) ∧ growth.node.IsOneWord language.grammar := by
  have hadvance : advance place 1 = (place + 1 : Nat) := advance_of_nonneg (by omega) (by omega)
  cases part with
  | word mark w =>
      rw [grow] at h
      cases h
      refine ⟨?_, hpart⟩
      dsimp only
      split
      · next hmark =>
          rw [Mark.endIndex, hpart hmark, if_neg (by omega)]
          exact hadvance
      · exact hadvance
  | deferred mark part =>
      obtain ⟨hmark, href, id, kind, hrule, hkind, hsingle⟩ := hpart
      rw [grow, if_neg (by simp [hmark])] at h
      obtain ⟨unfolded, hunfolded, rfl⟩ := Option.map_eq_some_iff.1 h
      simp only [growDeferred, href, Option.isSome_none, Bool.false_eq_true, if_false,
        hrule] at hunfolded
      have hnode : (Outline.deferred mark part).reference? = none := href
      obtain ⟨w, rfl⟩ := unfoldWithin_single hg hkind hsingle hnode hunfolded
      exact ⟨hadvance, fun _ => rfl⟩
  | blank | sequence | choice | scope => exact hpart.elim

/-- What a pass over a node comes to: below the limit the bound moves on by a place, and a bound at
the limit leaves nothing to unfold. -/
def Passes (language : Language) (query : Query) (scope : Option TypeId) (limit : Int) (bound : Nat)
    (outline : Outline) : Prop :=
  ∀ place : Nat, outline.Waits language scope bound place → (place : Int) < limit ∨ place < bound →
    ∃ growth, language.grow query limit scope place outline = some growth ∧
      ((bound : Int) < limit → growth.node.Waits language scope (bound + 1) place) ∧
      (limit ≤ bound → growth.grew = false)

theorem exists_growParts_waits {parts : List Outline}
    (ih : ∀ part ∈ parts, language.Passes query scope limit bound part)
    (h : PartsWait language scope bound place parts) :
    ∃ grown, language.growParts query limit scope place parts = some grown ∧
      ((bound : Int) < limit → PartsWait language scope (bound + 1) place grown.parts) ∧
      (limit ≤ bound → grown.grew = false) := by
  induction parts generalizing place with
  | nil =>
      refine ⟨_, by rw [growParts], ?_, fun _ => rfl⟩
      exact fun _ => trivial
  | cons part parts ihparts =>
      by_cases hstop : limit ≤ place
      · -- the parts that are not visited wait behind the limit
        refine ⟨_, by rw [growParts, if_pos hstop], ?_, fun _ => rfl⟩
        intro hbelow
        have hwaits : (Outline.sequence {} {} (part :: parts)).Waits language scope bound place :=
          fun _ => h
        exact hwaits.move (by omega) rfl
      · obtain ⟨hpart, hword, hrest⟩ := h
        have hscope : part.scopeAt scope = scope := by
          cases part with
          | scope mark type => exact hpart.elim
          | blank | word | deferred | sequence | choice => rfl
        obtain ⟨head, hhead, hmoves, hquiet⟩ := ih part (List.mem_cons_self ..) place hpart
          (.inl (by omega))
        by_cases hmore : parts = []
        · subst hmore
          refine ⟨⟨[head.node], head.index, head.grew || false, head.node.mark.complete && true⟩,
            ?_, ?_, ?_⟩
          · rw [growParts, if_neg hstop, hscope, hhead, Option.bind_some, growParts,
              Option.map_some]
          · intro hbelow
            exact ⟨hmoves hbelow, fun hnil => absurd rfl hnil, trivial⟩
          · intro hlimit
            simp [hquiet hlimit]
        · obtain ⟨hindex, hone⟩ := grow_isOneWord hg (hword hmore) hhead
          obtain ⟨rest, hgrown, hmovesRest, hquietRest⟩ :=
            ihparts (fun other hother => ih other (List.mem_cons_of_mem _ hother)) hrest
          refine ⟨⟨head.node :: rest.parts, rest.index, head.grew || rest.grew,
            head.node.mark.complete && rest.complete⟩, ?_, ?_, ?_⟩
          · rw [growParts, if_neg hstop, hscope, hhead, Option.bind_some, hindex, hgrown,
              Option.map_some]
          · intro hbelow
            exact ⟨hmoves hbelow, fun _ => hone, hmovesRest hbelow⟩
          · intro hlimit
            simp [hquiet hlimit, hquietRest hlimit]

include hdepth in
/-- A pass moves the first waiting part on by a place. -/
theorem exists_grow_waits (query : Query) (limit : Int) (outline : Outline) :
    language.Passes query scope limit bound outline := by
  induction outline with
  | blank mark =>
      intro place _ _
      refine ⟨_, by rw [grow], ?_, fun _ => rfl⟩
      exact fun _ => trivial
  | word mark w =>
      intro place _ _
      refine ⟨_, by rw [grow], ?_, fun _ => rfl⟩
      exact fun _ => trivial
  | scope mark type =>
      intro place h _
      exact h.elim
  | deferred mark part =>
      rintro place ⟨hmark, href, hwaits⟩ hplace
      obtain ⟨unfolded, hunfolded⟩ := exists_unfold hdepth scope false part.rule
        (.deferred mark part)
      have hgrow : language.grow query limit scope place (.deferred mark part) =
          some ⟨unfolded.node, advance place unfolded.node.count, unfolded.grew⟩ := by
        simp [grow, hmark, growDeferred, href, hunfolded]
      refine ⟨_, hgrow, ?_, ?_⟩
      · intro hbelow
        have hnode : (Outline.deferred mark part).reference? = none := href
        rcases unfoldWithin_waits hg hnode hunfolded with
          ⟨hsame, hgrew⟩ | hmoves
        · -- a rule that leaves the node alone cannot be unfolded in later passes either
          have hstill : unfolded.grew = false := by
            simpa [isDeferred] using hgrew
          have hidle : unfolded = ⟨.deferred mark part, false⟩ := by rw [← hsame, ← hstill]
          subst hidle
          exact ⟨hmark, href, .inr hunfolded⟩
        · rcases hwaits with hbound | hidle
          · exact (hmoves place).move (by omega)
          · rw [hidle] at hunfolded
            cases hunfolded
            exact ⟨hmark, href, .inr hidle⟩
      · intro hlimit
        rcases hwaits with hbound | hidle
        · omega
        · rw [hidle] at hunfolded
          cases hunfolded
          rfl
  | choice mark branches ih =>
      intro place h hplace
      by_cases hmark : mark.complete = true
      · exact ⟨_, by rw [grow, if_pos hmark], by simp [Waits, hmark], fun _ => rfl⟩
      · rw [Bool.not_eq_true] at hmark
        have hbranches := branchesWait_iff.1 (h hmark)
        obtain ⟨grown, hgrown, hall⟩ := exists_mapM_eq_some fun branch hbranch =>
          ih branch hbranch place (hbranches branch hbranch) hplace
        refine ⟨⟨closeChoice mark (grown.map Growth.node),
          agreedIndex place (grown.map Growth.index),
          grown.any Growth.grew⟩, ?_, ?_, ?_⟩
        · rw [grow, if_neg (by simp [hmark]), growBranches_eq_mapM, hgrown, Option.map_some]
        · intro hbelow
          obtain ⟨mark', hclose⟩ := closeChoice_eq mark (grown.map Growth.node)
          rw [hclose]
          intro _
          apply branchesWait_iff.2
          intro node hnode
          obtain ⟨growth, hgrowth, rfl⟩ := List.mem_map.1 hnode
          obtain ⟨-, -, hmoves, -⟩ := exists_left_of_forall₂ hall growth hgrowth
          exact hmoves hbelow
        · intro hlimit
          rw [List.any_eq_false]
          intro growth hgrowth
          obtain ⟨-, -, -, hquiet⟩ := exists_left_of_forall₂ hall growth hgrowth
          simp [hquiet hlimit]
  | sequence mark info parts ih =>
      intro place h hplace
      by_cases hmark : mark.complete = true
      · exact ⟨_, by rw [grow, if_pos hmark], by simp [Waits, hmark], fun _ => rfl⟩
      · rw [Bool.not_eq_true] at hmark
        obtain ⟨grown, hgrown, hmoves, hquiet⟩ := exists_growParts_waits hg ih (h hmark)
        refine ⟨⟨closeSequence mark info grown.parts grown.complete limit, grown.index, grown.grew⟩,
          ?_, ?_, hquiet⟩
        · rw [grow, if_neg (by simp [hmark]), hgrown, Option.map_some]
        · intro hbelow
          obtain ⟨mark', hclose⟩ := closeSequence_eq mark info grown.parts grown.complete limit
          rw [hclose]
          exact fun _ => hmoves hbelow

/-! ### The passes -/

include hdepth in
/-- The passes have an outcome if there are as many of them as places from the bound to the
limit. -/
theorem exists_settleWithin_of_waits {passes : Nat} {outline : Outline}
    (h : outline.Waits language scope bound 0) (hbound : 0 < bound) (hpasses : 0 < passes)
    (hlimit : limit ≤ bound + passes - 1) :
    ∃ outcome, language.settleWithin query scope limit passes outline = some outcome := by
  induction passes generalizing bound outline with
  | zero => omega
  | succ passes ih =>
      obtain ⟨growth, hgrowth, hmoves, hquiet⟩ :=
        exists_grow_waits hg hdepth query limit outline 0 h (.inr hbound)
      rw [Int.natCast_zero] at hgrowth
      rw [settleWithin, hgrowth, Option.bind_some]
      cases hpruned : growth.node.prune query 0 with
      | none => exact ⟨none, rfl⟩
      | some pruned =>
          obtain ⟨-, rfl⟩ := prune_eq_some hpruned
          by_cases hbelow : (bound : Int) < limit
          · cases hgrew : growth.grew with
            | false => exact ⟨_, rfl⟩
            | true =>
                exact ih (retain_waits query (hmoves hbelow) 0) (by omega) (by omega) (by omega)
          · rw [hquiet (by omega)]
            exact ⟨_, rfl⟩

/-! ### The seed -/

omit hg in
theorem offerKeyword_waits {node : Outline} (h : node.Waits language scope bound place)
    (keyword : String) : (offerKeyword node keyword).Waits language scope bound place := by
  cases node with
  | choice mark branches =>
      intro hmark
      apply branchesWait_iff.2
      intro branch hmem
      rcases List.mem_append.1 hmem with hmem | hmem
      · exact branchesWait_iff.1 (h hmark) branch hmem
      · rw [List.mem_singleton.1 hmem]
        trivial
  | blank | word | deferred | sequence | scope => exact fun _ => ⟨h, trivial, trivial⟩

include hdepth in
/-- The commands of a block wait behind their first words. -/
theorem exists_blockNode_waits (scope : Option TypeId) (block : Option RuleId) :
    ∃ node, language.blockNode scope block = some node ∧ node.Waits language scope 1 0 := by
  obtain ⟨unfolded, hunfolded⟩ := exists_unfold hdepth scope true block (.blank {})
  have hwaits := (unfoldWithin_waits hg rfl hunfolded).waits 0
  refine ⟨_, by rw [blockNode, hunfolded, Option.map_some], ?_⟩
  split
  · exact offerKeyword_waits hwaits _
  · exact hwaits

include hdepth in
theorem exists_seedBranches_wait (query : Query) (scope : Option TypeId)
    (blocks : List (Option RuleId)) :
    ∃ branches, language.seedBranches query scope blocks = some branches ∧
      ∀ branch ∈ branches, branch.Waits language scope 1 0 := by
  induction blocks with
  | nil => exact ⟨[], rfl, by simp⟩
  | cons block blocks ih =>
      obtain ⟨rest, hrest, hwait⟩ := ih
      obtain ⟨node, hnode, hwaits⟩ := exists_blockNode_waits hg hdepth scope block
      have hkept : ∀ kept ∈ (node.prune query 0).toList, kept.Waits language scope 1 0 := by
        intro kept hmem
        obtain ⟨-, rfl⟩ := prune_eq_some (Option.mem_toList.1 hmem)
        exact retain_waits query hwaits 0
      rw [seedBranches, hnode, Option.bind_some]
      split
      · refine ⟨_, by rw [hrest, Option.map_some], ?_⟩
        intro branch hmem
        rcases List.mem_append.1 hmem with hmem | hmem
        · exact hkept branch hmem
        · exact hwait branch hmem
      · exact ⟨_, rfl, hkept⟩

end RightRecursive

/-! ### Answers -/

theorem lt_passBudget (language : Language) (query : Query) (blocks : List RuleId) (limit : Int) :
    limit.toNat < language.passBudget query blocks limit := by
  have hreach : limit.toNat + query.words.length + 2 ≤ (language.grammar.rules.size + 1) *
      (language.types.types.size + 1) * (limit.toNat + query.words.length + 2) :=
    Nat.le_mul_of_pos_left _ (Nat.mul_pos (by omega) (by omega))
  calc limit.toNat
      < (language.grammar.width + 2) ^ (language.grammar.rules.size + 2) +
          (language.grammar.rules.size + 1) * (language.types.types.size + 1) *
            (limit.toNat + query.words.length + 2) := by omega
    _ ≤ language.passBudget query blocks limit := Nat.le_mul_of_pos_left _ (by omega)

/-- In a language with recursion at the end of sequences only, the passes come to a last one after
no more passes than there are words to look at (or after one, if there are none), and every request
has an answer. -/
theorem answers_of_rightRecursive (h : language.grammar.RightRecursive) :
    (∀ query scope blocks limit, language.Ends query scope blocks limit ∧
      ∃ outline outcome, language.seed query scope blocks = some outline ∧
        language.settleWithin query scope limit (max 1 limit.toNat) outline = some outcome ∧
        language.settle query scope blocks limit = some outcome) ∧
    ∀ files request, (∃ completion, language.suggest files request = some completion) ∧
      ∃ hint, language.hint request = some hint := by
  obtain ⟨depth, hdepth⟩ := h.exists_isDepth
  have hsettle : ∀ query scope blocks limit, ∃ outline outcome,
      language.seed query scope blocks = some outline ∧
        language.settleWithin query scope limit (max 1 limit.toNat) outline = some outcome ∧
        language.settle query scope blocks limit = some outcome := by
    intro query scope blocks limit
    obtain ⟨branches, hbranches, hwait⟩ := exists_seedBranches_wait h hdepth query scope
      (language.seedBlocks blocks)
    have hseed : language.seed query scope blocks = some (.choice {} branches) := by
      rw [seed, hbranches, Option.map_some]
    have hwaits : (Outline.choice {} branches).Waits language scope 1 0 :=
      fun _ => branchesWait_iff.2 hwait
    obtain ⟨outcome, houtcome⟩ : ∃ outcome, language.settleWithin query scope limit
        (max 1 limit.toNat) (.choice {} branches) = some outcome :=
      exists_settleWithin_of_waits h hdepth hwaits (by omega) (by omega) (by omega)
    have hbudget := language.lt_passBudget query blocks limit
    refine ⟨_, outcome, hseed, houtcome, ?_⟩
    rw [settle, hseed, Option.bind_some]
    exact settleWithin_of_le houtcome (by omega)
  refine ⟨?_, ?_⟩
  · intro query scope blocks limit
    obtain ⟨outline, outcome, hseed, hwithin, houtcome⟩ := hsettle query scope blocks limit
    exact ⟨ends_of_settle houtcome, outline, outcome, hseed, hwithin, houtcome⟩
  · intro files request
    refine exists_answers ?_ files request
    intro query scope blocks limit
    obtain ⟨-, outcome, -, -, houtcome⟩ := hsettle query scope blocks limit
    exact ⟨outcome, houtcome⟩

/-! ### A list of any length -/

/-- The test of a table: all rules are in order, and each leads to earlier places only. -/
theorem rightRecursive_index {grammar : Grammar}
    (h : ∀ entry ∈ grammar.rules.toList.zipIdx, entry.1.kind.isUntyped = true ∧
      (∀ child ∈ entry.1.kind.inner, (grammar.kind? child).any RuleKind.isSingleWord = true) ∧
      ∀ target ∈ entry.1.kind.leading, target.index < entry.2) : grammar.RightRecursive := by
  have hat : ∀ id kind, grammar.kind? id = some kind → kind.isUntyped = true ∧
      (∀ child ∈ kind.inner, (grammar.kind? child).any RuleKind.isSingleWord = true) ∧
      ∀ target ∈ kind.leading, target.index < id.index := by
    intro id kind hkind
    obtain ⟨rule, hrule, rfl⟩ := Option.map_eq_some_iff.1 hkind
    exact h (rule, id.index) (List.mk_mem_zipIdx_iff_getElem?.2 (by simpa using hrule))
  refine ⟨fun id kind hkind => (hat id kind hkind).1, ?_, ?_⟩
  · intro id children singleToken isError hkind child hchild
    have hsingle := (hat id _ hkind).2.1 child hchild
    simpa [Option.any_eq_true] using hsingle
  · intro id hcycle
    have hlt : ∀ target, Relation.TransGen grammar.Leads id target → target.index < id.index := by
      intro target htarget
      induction htarget with
      | single hstep =>
          obtain ⟨kind, hkind, hleading⟩ := hstep
          exact (hat _ kind hkind).2.2 _ hleading
      | tail _ hstep ih =>
          obtain ⟨kind, hkind, hleading⟩ := hstep
          have := (hat _ kind hkind).2.2 _ hleading
          omega
    exact absurd (hlt id hcycle) (lt_irrefl _)

/-- A language of commands `visit`, each with a place and then either the word `stop` or another
command: the list of places may be of any length. -/
def visitLanguage : Language where
  grammar :=
    { rules := #[⟨.leaf (.literal "visit"), none⟩, ⟨.freeWord { kind := "place" }, none⟩,
        ⟨.leaf (.literal "stop"), none⟩, ⟨.sequence [⟨0⟩, ⟨1⟩, ⟨4⟩] false false, none⟩,
        ⟨.choice [⟨3⟩, ⟨2⟩], none⟩]
      root := some ⟨3⟩ }

/-- The command leads to itself again, but the passes that look at seven words end after seven. -/
theorem answers_of_rightRecursive_visitLanguage :
    Relation.TransGen visitLanguage.grammar.Refers ⟨3⟩ ⟨3⟩ ∧
      ∃ outline outcome,
        visitLanguage.seed ⟨["visit", "north", "v"], 2, .hint⟩ none [] = some outline ∧
        visitLanguage.settleWithin ⟨["visit", "north", "v"], 2, .hint⟩ none 7 7 outline =
          some outcome := by
  constructor
  · have hmore : visitLanguage.grammar.Refers ⟨3⟩ ⟨4⟩ :=
      ⟨.sequence [⟨0⟩, ⟨1⟩, ⟨4⟩] false false, rfl, by decide⟩
    have hback : visitLanguage.grammar.Refers ⟨4⟩ ⟨3⟩ := ⟨.choice [⟨3⟩, ⟨2⟩], rfl, by decide⟩
    exact .tail (.single hmore) hback
  · have hright : visitLanguage.grammar.RightRecursive := rightRecursive_index (by decide)
    have hanswers := answers_of_rightRecursive hright
    obtain ⟨-, outline, outcome, hseed, hsettled, -⟩ :=
      hanswers.1 ⟨["visit", "north", "v"], 2, .hint⟩ none [] 7
    exact ⟨outline, outcome, hseed, hsettled⟩

end Language

end Typeahead
