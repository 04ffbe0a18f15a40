/-
What one step may do to an outline.

A pass over an outline unfolds some of its parts, and pruning drops some of its branches.  Both keep
an outline regular, add no word list, leave lengths alone, and make the outline lighter: the weight
of an outline is what its put off rules cost, and a rule costs more than the rules it refers to
together.  This module collects these facts in one relation and shows that it passes through
sequences and choices, so that each step has to be looked at only where it happens.

Main definitions:

* `Typeahead.Grammar.Priced` — a rule costs more than the rules it refers to together;
* `Typeahead.Outline.weight` — what the put off rules of an outline cost;
* `Typeahead.Outline.variants` — in how many ways an outline can be read;
* `Typeahead.Outline.Follows` — an outline after a step, beside the outline before.

Main results:

* `Typeahead.Outline.Follows.sequence`, `Typeahead.Outline.Follows.choice` — steps in the parts of a
  node are a step of the node.
-/

import Mathlib.Algebra.GroupWithZero.Nat
import Mathlib.Data.List.Forall2
import Typeahead.Proofs.Yield

set_option relaxedAutoImplicit false
set_option autoImplicit false

namespace Typeahead

section Lists

variable {α β : Type} {R : α → β → Prop} {xs : List α} {ys : List β}

theorem exists_left_of_forall₂ (h : List.Forall₂ R xs ys) : ∀ y ∈ ys, ∃ x ∈ xs, R x y := by
  induction h with
  | nil => simp
  | cons hxy _ ih =>
      intro y hmem
      rcases List.mem_cons.1 hmem with rfl | hmem
      · exact ⟨_, List.mem_cons_self .., hxy⟩
      · obtain ⟨x, hx, hrel⟩ := ih y hmem
        exact ⟨x, List.mem_cons_of_mem _ hx, hrel⟩

theorem exists_right_of_forall₂ (h : List.Forall₂ R xs ys) : ∀ x ∈ xs, ∃ y ∈ ys, R x y :=
  exists_left_of_forall₂ (R := flip R) h.flip

theorem mapM_eq_some_iff {f : α → Option β} :
    xs.mapM f = some ys ↔ List.Forall₂ (fun x y => f x = some y) xs ys := by
  induction xs generalizing ys with
  | nil =>
      rw [List.forall₂_nil_left_iff, List.mapM_nil]
      exact ⟨fun h => (Option.some.inj h).symm, fun h => congrArg some h.symm⟩
  | cons x xs ih =>
      rw [List.mapM_cons]
      constructor
      · intro h
        obtain ⟨y, hy, h⟩ := Option.bind_eq_some_iff.1 h
        obtain ⟨rest, hrest, h⟩ := Option.bind_eq_some_iff.1 h
        cases h
        exact .cons hy (ih.1 hrest)
      · rintro (_ | ⟨hy, hrest⟩)
        simp [hy, ih.2 hrest]

/-- Some entry of one list has a property exactly if some entry of the other has the other one. -/
theorem exists_mem_congr_of_forall₂ {P : α → Prop} {Q : β → Prop}
    (h : List.Forall₂ (fun x y => P x ↔ Q y) xs ys) : (∃ x ∈ xs, P x) ↔ ∃ y ∈ ys, Q y := by
  induction h with
  | nil => simp
  | cons hxy _ ih => simp only [List.mem_cons, exists_eq_or_imp, hxy, ih]

/-- A property of all entries but the last. -/
theorem forall_mem_dropLast_cons {P : α → Prop} {x : α} :
    (∀ y ∈ (x :: xs).dropLast, P y) ↔ (xs ≠ [] → P x) ∧ ∀ y ∈ xs.dropLast, P y := by
  cases xs with
  | nil => simp
  | cons next xs => simp [List.dropLast_cons_of_ne_nil]

end Lists

/-- A rule costs more than the rules it refers to together. -/
def Grammar.Priced (grammar : Grammar) (root : RuleId) (cost : RuleId → Nat) : Prop :=
  ∀ id kind, grammar.Reaches root id → grammar.kind? id = some kind →
    (kind.references.map cost).sum < cost id

namespace Outline

/-! ### Weights and variants -/

mutual

/-- What the put off rules of an outline cost. -/
def weight (cost : RuleId → Nat) : Outline → Nat
  | .deferred _ part => part.rule.elim 0 cost
  | .sequence _ _ children | .choice _ children => totalWeight cost children
  | .blank _ | .word _ _ | .scope _ _ => 0

/-- What the put off rules of several outlines cost. -/
def totalWeight (cost : RuleId → Nat) : List Outline → Nat
  | [] => 0
  | child :: children => weight cost child + totalWeight cost children

end

mutual

/-- In how many ways an outline can be read, given in how many ways its put off rules can. -/
def variants (choices : RuleId → Nat) : Outline → Nat
  | .word _ _ => 1
  | .deferred _ part => part.rule.elim 0 choices
  | .sequence _ _ parts => variantsAll choices parts
  | .choice _ branches => variantsAny choices branches
  | .blank _ | .scope _ _ => 0

/-- The product over the parts. -/
def variantsAll (choices : RuleId → Nat) : List Outline → Nat
  | [] => 1
  | part :: parts => variants choices part * variantsAll choices parts

/-- The sum over the branches. -/
def variantsAny (choices : RuleId → Nat) : List Outline → Nat
  | [] => 0
  | branch :: branches => variants choices branch + variantsAny choices branches

end

/-! ### Steps -/

/-- The outline `after` is regular and comes from `before` by unfolding put off rules and dropping
branches. -/
structure Follows (grammar : Grammar) (root : RuleId) (cost : RuleId → Nat)
    (before after : Outline) : Prop where
  regular : after.Regular grammar root
  yields : ∀ words, after.Yields grammar words → before.Yields grammar words
  uniform : before.Uniform grammar → after.Uniform grammar
  extent : before.Uniform grammar → after.extent grammar = before.extent grammar
  expanded : before.isExpanded = true → after.isExpanded = true
  weight : after.weight cost ≤ before.weight cost
  variants : after.variants grammar.parseChoices ≤ before.variants grammar.parseChoices

variable {grammar : Grammar} {root : RuleId} {cost : RuleId → Nat}

theorem Follows.refl {outline : Outline} (h : outline.Regular grammar root) :
    Follows grammar root cost outline outline where
  regular := h
  yields _ hwords := hwords
  uniform huniform := huniform
  extent _ := rfl
  expanded hexp := hexp
  weight := le_rfl
  variants := le_rfl

/-! Steps in all parts of a sequence, taken together. -/

section Parts

variable {parts parts' : List Outline}

theorem Follows.yieldsAll (h : List.Forall₂ (Follows grammar root cost) parts parts')
    {words : List Word} (hwords : YieldsAll grammar parts' words) :
    YieldsAll grammar parts words := by
  induction h generalizing words with
  | nil => exact hwords
  | cons hpart _ ih =>
      obtain ⟨first, rest, rfl, hfirst, hrest⟩ := hwords
      exact ⟨first, rest, rfl, hpart.yields first hfirst, ih hrest⟩

theorem Follows.uniformAll (h : List.Forall₂ (Follows grammar root cost) parts parts')
    (huniform : UniformAll grammar parts) :
    UniformAll grammar parts' ∧ extentAll grammar parts' = extentAll grammar parts := by
  induction h with
  | nil => exact ⟨trivial, rfl⟩
  | cons hpart _ ih =>
      obtain ⟨hrest, hextent⟩ := ih huniform.2
      refine ⟨⟨hpart.uniform huniform.1, hrest⟩, ?_⟩
      rw [extentAll, extentAll, hpart.extent huniform.1, hextent]

theorem Follows.regularParts (h : List.Forall₂ (Follows grammar root cost) parts parts')
    (hreg : RegularParts grammar root parts) : RegularParts grammar root parts' := by
  induction h with
  | nil => trivial
  | cons hpart hrest ih =>
      refine ⟨hpart.regular, fun hne => hpart.uniform (hreg.2.1 ?_), ih hreg.2.2⟩
      -- there are as many parts as before, so the last one is still the last
      rintro rfl
      cases hrest
      exact hne rfl

theorem Follows.allExpanded (h : List.Forall₂ (Follows grammar root cost) parts parts')
    (hexp : allExpanded parts = true) : allExpanded parts' = true := by
  induction h with
  | nil => rfl
  | cons hpart _ ih =>
      simp only [Outline.allExpanded, Bool.and_eq_true] at hexp ⊢
      exact ⟨hpart.expanded hexp.1, ih hexp.2⟩

theorem Follows.totalWeight (h : List.Forall₂ (Follows grammar root cost) parts parts') :
    totalWeight cost parts' ≤ totalWeight cost parts := by
  induction h with
  | nil => rfl
  | cons hpart _ ih =>
      simp only [Outline.totalWeight]
      exact Nat.add_le_add hpart.weight ih

theorem Follows.variantsAll (h : List.Forall₂ (Follows grammar root cost) parts parts') :
    variantsAll grammar.parseChoices parts' ≤ variantsAll grammar.parseChoices parts := by
  induction h with
  | nil => rfl
  | cons hpart _ ih =>
      simp only [Outline.variantsAll]
      exact Nat.mul_le_mul hpart.variants ih

/-- Steps in the parts of a sequence are a step of the sequence, if its new mark is honest about
them. -/
theorem Follows.sequence {mark mark' : Mark} {info : SequenceInfo}
    (hreg : (Outline.sequence mark info parts).Regular grammar root)
    (h : List.Forall₂ (Follows grammar root cost) parts parts')
    (hexp : mark'.complete = true → Outline.allExpanded parts' = true)
    (hcount : (Outline.sequence mark info parts).Uniform grammar → mark'.complete = true →
      mark'.wordCount = extentAll grammar parts') :
    Follows grammar root cost (.sequence mark info parts) (.sequence mark' info parts') where
  regular := by
    obtain ⟨hrule, hne, -, hparts⟩ := hreg
    refine ⟨hrule, ?_, hexp, Follows.regularParts h hparts⟩
    rintro rfl
    cases h
    exact hne rfl
  yields words hwords := Follows.yieldsAll h hwords
  uniform huniform := ⟨hcount huniform, (Follows.uniformAll h huniform.2).1⟩
  extent huniform := (Follows.uniformAll h huniform.2).2
  expanded hexpanded := Follows.allExpanded h hexpanded
  weight := Follows.totalWeight h
  variants := Follows.variantsAll h

end Parts

/-! Steps in branches, some of which may go. -/

section Branches

variable {branches branches' : List Outline}

/-- The branches after a step: each one follows a branch before the step, in the same order. -/
abbrev FollowsSome (grammar : Grammar) (root : RuleId) (cost : RuleId → Nat)
    (branches branches' : List Outline) : Prop :=
  List.SublistForall₂ (fun after before => Follows grammar root cost before after)
    branches' branches

theorem FollowsSome.exists_follows (h : FollowsSome grammar root cost branches branches') :
    ∀ branch' ∈ branches', ∃ branch ∈ branches, Follows grammar root cost branch branch' := by
  induction h with
  | nil => simp
  | cons hbranch _ ih =>
      intro branch' hmem
      rcases List.mem_cons.1 hmem with rfl | hmem
      · exact ⟨_, List.mem_cons_self .., hbranch⟩
      · obtain ⟨branch, hbranchMem, hfollows⟩ := ih branch' hmem
        exact ⟨branch, List.mem_cons_of_mem _ hbranchMem, hfollows⟩
  | cons_right _ ih =>
      intro branch' hmem
      obtain ⟨branch, hbranchMem, hfollows⟩ := ih branch' hmem
      exact ⟨branch, List.mem_cons_of_mem _ hbranchMem, hfollows⟩

theorem FollowsSome.totalWeight (h : FollowsSome grammar root cost branches branches') :
    totalWeight cost branches' ≤ totalWeight cost branches := by
  induction h with
  | nil => exact Nat.zero_le _
  | cons hbranch _ ih =>
      simp only [Outline.totalWeight]
      exact Nat.add_le_add hbranch.weight ih
  | cons_right _ ih =>
      simp only [Outline.totalWeight]
      exact ih.trans (Nat.le_add_left ..)

theorem FollowsSome.variantsAny (h : FollowsSome grammar root cost branches branches') :
    variantsAny grammar.parseChoices branches' ≤ variantsAny grammar.parseChoices branches := by
  induction h with
  | nil => exact Nat.zero_le _
  | cons hbranch _ ih =>
      simp only [Outline.variantsAny]
      exact Nat.add_le_add hbranch.variants ih
  | cons_right _ ih =>
      simp only [Outline.variantsAny]
      exact ih.trans (Nat.le_add_left ..)

/-- The branches that are left are as long as the branches before. -/
theorem FollowsSome.uniformAny {n : Nat} (h : FollowsSome grammar root cost branches branches')
    (hne : branches' ≠ []) (huniform : UniformAny grammar n branches) :
    UniformAny grammar n branches' ∧ extentAny grammar branches' = n := by
  have hall : UniformAny grammar n branches' := by
    refine uniformAny_iff.2 fun branch' hmem => ?_
    obtain ⟨branch, hbranch, hfollows⟩ := h.exists_follows branch' hmem
    obtain ⟨hunif, hextent⟩ := uniformAny_iff.1 huniform branch hbranch
    exact ⟨hfollows.uniform hunif, (hfollows.extent hunif).trans hextent⟩
  refine ⟨hall, ?_⟩
  cases branches' with
  | nil => exact absurd rfl hne
  | cons branch' _ => exact hall.2.1

/-- Steps in the branches of a choice are a step of the choice, as long as one of them is left and
the new mark is honest about them. -/
theorem Follows.choice {mark mark' : Mark}
    (h : FollowsSome grammar root cost branches branches') (hne : branches' ≠ [])
    (hexp : mark'.complete = true → Outline.allExpanded branches' = true)
    (hcount : (Outline.choice mark branches).Uniform grammar → mark'.complete = true →
      mark'.wordCount = extentAny grammar branches') :
    Follows grammar root cost (.choice mark branches) (.choice mark' branches') where
  regular := by
    refine ⟨hne, hexp, regularBranches_iff.2 fun branch' hmem => ?_⟩
    obtain ⟨branch, -, hfollows⟩ := h.exists_follows branch' hmem
    exact hfollows.regular
  yields words hwords := by
    obtain ⟨branch', hmem, hbranch'⟩ := yieldsAny_iff.1 hwords
    obtain ⟨branch, hbranch, hfollows⟩ := h.exists_follows branch' hmem
    exact yieldsAny_iff.2 ⟨branch, hbranch, hfollows.yields words hbranch'⟩
  uniform huniform := by
    obtain ⟨hall, hextent⟩ := h.uniformAny hne huniform.2
    exact ⟨hcount huniform, hextent.symm ▸ hall⟩
  extent huniform := (h.uniformAny hne huniform.2).2
  expanded hexpanded := by
    refine allExpanded_iff.2 fun branch' hmem => ?_
    obtain ⟨branch, hbranch, hfollows⟩ := h.exists_follows branch' hmem
    exact hfollows.expanded (allExpanded_iff.1 hexpanded branch hbranch)
  weight := h.totalWeight
  variants := h.variantsAny

end Branches

end Outline

end Typeahead
