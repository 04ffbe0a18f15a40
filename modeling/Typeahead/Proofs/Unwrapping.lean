/-
Unfolding in a grammar with one more wrapper.

Unfolding a wrapper comes to the same as unfolding what it stands for, but it goes one rule deeper.
How deep unfolding goes does not depend on the node it unfolds into, and on its way down it comes to
the wrapped rule at most twice, once with blocks open and once with blocks closed: if it came there
again in the same situation it would never end.  So where unfolding ends without the wrapper, it ends
with the wrapper as well, and two levels more are enough.

Main definitions:

* `Typeahead.Language.callsFrom` — what unfolding a rule goes on with;
* `Typeahead.Language.endsWithin` — unfolding ends within a bounded depth;
* `Typeahead.Language.detours` — with blocks open and with blocks closed, in how many of these two
  situations unfolding the wrapped rule ends within a bounded depth.

Main results:

* `Typeahead.Language.isSome_unfoldWithin` — whether unfolding ends does not depend on the node;
* `Typeahead.Language.endsWithin_withGrammar` — it ends with the wrapper, a few levels later;
* `Typeahead.Language.unfold_withGrammar` — and it comes to the same.
-/

import Typeahead.Proofs.Steps
import Typeahead.Proofs.Wrappers

set_option relaxedAutoImplicit false
set_option autoImplicit false

namespace Typeahead

section Lists

variable {α β γ δ : Type}

theorem isSome_mapM {f : α → Option β} {xs : List α} :
    (xs.mapM f).isSome = xs.all fun x => (f x).isSome := by
  induction xs with
  | nil => rfl
  | cons x xs ih =>
      rw [List.mapM_cons, List.all_cons, ← ih]
      cases f x with
      | none => rfl
      | some y => cases xs.mapM f <;> rfl

/-- Two walks over a list that agree step by step agree altogether. -/
theorem map_eq_of_mapM {g : α → Option β} {g' : γ → Option δ} {φ : γ → α}
    {ψ : δ → β} {xs : List γ} {ys : List β} {zs : List δ}
    (hstep : ∀ x ∈ xs, ∀ y z, g (φ x) = some y → g' x = some z → ψ z = y)
    (hys : (xs.map φ).mapM g = some ys) (hzs : xs.mapM g' = some zs) : zs.map ψ = ys := by
  induction xs generalizing ys zs with
  | nil =>
      cases hys
      cases hzs
      rfl
  | cons x xs ih =>
      rw [List.map_cons, List.mapM_cons] at hys
      rw [List.mapM_cons] at hzs
      obtain ⟨y, hy, hys⟩ := Option.bind_eq_some_iff.1 hys
      obtain ⟨ys, hrest, hys⟩ := Option.bind_eq_some_iff.1 hys
      obtain ⟨z, hz, hzs⟩ := Option.bind_eq_some_iff.1 hzs
      obtain ⟨zs, hrest', hzs⟩ := Option.bind_eq_some_iff.1 hzs
      cases hys
      cases hzs
      rw [List.map_cons, hstep x (List.mem_cons_self ..) y z hy hz,
        ih (fun other hother => hstep other (List.mem_cons_of_mem _ hother)) hrest hrest']

end Lists

namespace Language

variable {language : Language} {scope : Option TypeId}

/-! ### How deep unfolding goes -/

/-- The rules that unfolding a rule goes on with, each with whether blocks are open there. -/
def callsFrom (language : Language) (scope : Option TypeId) (openBlock : Bool) (id : RuleId) :
    List (Bool × Option RuleId) :=
  match language.grammar.kind? id with
  | some (.sequence (first :: _) _ false) => [(false, some first)]
  | some (.choice branches) => branches.map fun branch => (false, some branch)
  | some (.block body _) => if openBlock then [(true, body)] else []
  | some (.wrapper _ target) => [(openBlock, target)]
  | some .typeCommand =>
      if language.settings.expandTypeCommands then
        ((scope.bind language.types.rule?).map fun rule => (false, some rule)).toList
      else []
  | _ => []

/-- Unfolding a rule ends at most `fuel` rules deep. -/
def endsWithin (language : Language) (scope : Option TypeId) : Nat → Bool → Option RuleId → Bool
  | 0, _, _ => false
  | _ + 1, _, none => true
  | fuel + 1, openBlock, some id =>
      (language.callsFrom scope openBlock id).all fun call =>
        endsWithin language scope fuel call.1 call.2

/-- Whether unfolding ends does not depend on the node. -/
theorem isSome_unfoldWithin (fuel : Nat) (openBlock : Bool) (rule : Option RuleId)
    (node : Outline) :
    (language.unfoldWithin fuel scope openBlock rule node).isSome =
      language.endsWithin scope fuel openBlock rule := by
  induction fuel generalizing openBlock rule node with
  | zero => rfl
  | succ fuel ih =>
      cases rule with
      | none => rfl
      | some id =>
          rw [unfoldWithin, endsWithin, callsFrom]
          cases language.grammar.kind? id with
          | none => rfl
          | some kind =>
              cases kind with
              | leaf | freeWord | unknown => rfl
              | sequence children singleToken isError =>
                  cases isError with
                  | true => cases children <;> rfl
                  | false =>
                      cases children with
                      | nil => rfl
                      | cons first rest => simp [ih]
              | choice branches =>
                  simp only [Option.isSome_map, isSome_mapM, ih, List.all_map, Function.comp_def]
              | block body endKeyword => cases openBlock <;> simp [ih]
              | wrapper wrapping target => simp [ih]
              | typeLoad load =>
                  cases scope with
                  | none => rfl
                  | some current => simp only; split <;> rfl
              | typeCommand =>
                  cases hrule : scope.bind language.types.rule? with
                  | none => simp
                  | some rule =>
                    cases hexpand : language.settings.expandTypeCommands with
                    | false => simp
                    | true => simp [ih]

/-- With more fuel it still ends. -/
theorem endsWithin_of_le {fuel fuel' : Nat} {openBlock : Bool} {rule : Option RuleId}
    (h : language.endsWithin scope fuel openBlock rule = true) (hle : fuel ≤ fuel') :
    language.endsWithin scope fuel' openBlock rule = true := by
  induction fuel generalizing fuel' openBlock rule with
  | zero => cases h
  | succ fuel ih =>
      obtain ⟨more, rfl⟩ : ∃ more, fuel' = more + 1 := ⟨fuel' - 1, by omega⟩
      cases rule with
      | none => rfl
      | some id =>
          rw [endsWithin, List.all_eq_true] at h ⊢
          intro call hcall
          exact ih (h call hcall) (by omega)

/-! ### Detours over the wrapper -/

/-- The same language with another grammar. -/
def withGrammar (language : Language) (grammar : Grammar) : Language := { language with grammar }

@[simp] theorem withGrammar_grammar (grammar : Grammar) :
    (language.withGrammar grammar).grammar = grammar := rfl

@[simp] theorem withGrammar_types (grammar : Grammar) :
    (language.withGrammar grammar).types = language.types := rfl

@[simp] theorem withGrammar_settings (grammar : Grammar) :
    (language.withGrammar grammar).settings = language.settings := rfl

/-- In how many situations, blocks open or blocks closed, unfolding the rule `target` ends at most
`fuel` rules deep. -/
def detours (language : Language) (scope : Option TypeId) (target : RuleId) (fuel : Nat) : Nat :=
  (language.endsWithin scope fuel true (some target)).toNat +
    (language.endsWithin scope fuel false (some target)).toNat

theorem toNat_endsWithin_le (openBlock : Bool) (rule : Option RuleId) (fuel : Nat) :
    (language.endsWithin scope fuel openBlock rule).toNat ≤
      (language.endsWithin scope (fuel + 1) openBlock rule).toNat := by
  cases h : language.endsWithin scope fuel openBlock rule with
  | false => exact Nat.zero_le _
  | true => rw [endsWithin_of_le h (Nat.le_succ fuel)]

theorem detours_le_succ (target : RuleId) (fuel : Nat) :
    language.detours scope target fuel ≤ language.detours scope target (fuel + 1) :=
  Nat.add_le_add (toNat_endsWithin_le true _ fuel) (toNat_endsWithin_le false _ fuel)

/-- A situation that ends at a greater depth only is one more. -/
theorem detours_lt_succ {target : RuleId} {fuel : Nat} {openBlock : Bool}
    (hnot : language.endsWithin scope fuel openBlock (some target) = false)
    (hends : language.endsWithin scope (fuel + 1) openBlock (some target) = true) :
    language.detours scope target fuel < language.detours scope target (fuel + 1) := by
  -- the other situation ends at the greater depth if it does at the lesser
  unfold detours
  cases openBlock with
  | true =>
      rw [hnot, hends]
      exact Nat.add_lt_add_of_lt_of_le Nat.zero_lt_one (toNat_endsWithin_le ..)
  | false =>
      rw [hnot, hends]
      exact Nat.add_lt_add_of_le_of_lt (toNat_endsWithin_le ..) Nat.zero_lt_one

theorem detours_le_two (target : RuleId) (fuel : Nat) : language.detours scope target fuel ≤ 2 :=
  Nat.add_le_add (Bool.toNat_le _) (Bool.toNat_le _)

section Wrapped

variable {wrapped : Grammar} {target : RuleId} (h : language.grammar.AddsWrapper target wrapped)
  (hrules : ∀ type, language.types.rule? type ≠ some language.grammar.next)
include h hrules

/-- Unfolding any other rule goes on with the same rules, but for the wrapper. -/
theorem callsFrom_withGrammar {id : RuleId} (hid : id ≠ language.grammar.next) (openBlock : Bool) :
    ((language.withGrammar wrapped).callsFrom scope openBlock id).map
        (fun call => (call.1, call.2.map (language.grammar.unwrap target))) =
      language.callsFrom scope openBlock id := by
  rw [callsFrom, callsFrom, ← h.kind?_of_ne hid, withGrammar]
  cases wrapped.kind? id with
  | none => rfl
  | some kind =>
      cases kind with
      | leaf | freeWord | typeLoad | unknown | wrapper => rfl
      | sequence children singleToken isError =>
          cases isError with
          | true => cases children <;> rfl
          | false => cases children <;> rfl
      | choice branches => simp [RuleKind.mapReferences]
      | block body endKeyword => cases openBlock <;> rfl
      | typeCommand =>
          simp only [Option.map_some, RuleKind.mapReferences]
          split
          · cases hrule : scope.bind language.types.rule? with
            | none => rfl
            | some rule =>
                obtain ⟨type, -, htype⟩ := Option.bind_eq_some_iff.1 hrule
                have hne : rule ≠ language.grammar.next := fun heq => hrules type (heq ▸ htype)
                simp [Grammar.unwrap_of_ne hne]
          · rfl

/-- Where unfolding ends without the wrapper, it ends with the wrapper: a detour over the wrapper is
one rule longer, and no situation comes up twice. -/
theorem endsWithin_withGrammar {fuel fuel' : Nat} {openBlock : Bool} {rule : Option RuleId}
    (hends : language.endsWithin scope fuel openBlock
      (rule.map (language.grammar.unwrap target)) = true)
    (hfuel : fuel + language.detours scope target fuel ≤ fuel') :
    (language.withGrammar wrapped).endsWithin scope fuel' openBlock rule = true := by
  induction fuel generalizing fuel' openBlock rule with
  | zero => cases hends
  | succ fuel ih =>
      have hmore : language.detours scope target fuel ≤ language.detours scope target (fuel + 1) :=
        detours_le_succ target fuel
      -- any other rule leaves it to the rules after it to make detours
      have hother : ∀ {id openBlock fuel'}, id ≠ language.grammar.next →
          language.endsWithin scope (fuel + 1) openBlock (some id) = true →
          fuel + 1 + language.detours scope target fuel ≤ fuel' →
          (language.withGrammar wrapped).endsWithin scope fuel' openBlock (some id) = true := by
        intro id openBlock fuel' hid hends hfuel
        obtain ⟨more, rfl⟩ : ∃ more, fuel' = more + 1 := ⟨fuel' - 1, by omega⟩
        rw [endsWithin, List.all_eq_true] at hends ⊢
        intro call hcall
        have hmem := callsFrom_withGrammar h hrules hid openBlock ▸ List.mem_map_of_mem hcall
        exact ih (hends _ hmem) (by omega)
      cases rule with
      | none =>
          obtain ⟨more, rfl⟩ : ∃ more, fuel' = more + 1 := ⟨fuel' - 1, by omega⟩
          rfl
      | some id =>
          rw [Option.map_some] at hends
          by_cases hid : id = language.grammar.next
          · subst hid
            rw [Grammar.unwrap_next] at hends
            cases hshallow : language.endsWithin scope fuel openBlock (some target) with
            | true =>
                refine ih ?_ (by omega)
                rw [Option.map_some, Grammar.unwrap_next, hshallow]
            | false =>
                have hdetour := detours_lt_succ hshallow hends
                obtain ⟨more, rfl⟩ : ∃ more, fuel' = more + 1 := ⟨fuel' - 1, by omega⟩
                have htarget : (language.withGrammar wrapped).endsWithin scope more openBlock
                    (some target) = true := hother h.ne_next hends (by omega)
                rw [endsWithin, callsFrom]
                simp only [withGrammar, h.kind?_next, List.all_cons, List.all_nil, Bool.and_true]
                exact htarget
          · rw [Grammar.unwrap_of_ne hid] at hends
            exact hother hid hends (by omega)

end Wrapped

end Language

/-! ### What unfolding comes to -/

/-- What was unfolded, with every rule that is put off replaced. -/
def Unfolded.mapRules (f : RuleId → RuleId) (unfolded : Unfolded) : Unfolded :=
  ⟨unfolded.node.mapRules f, unfolded.grew⟩

namespace Language

variable {language : Language} {scope : Option TypeId} {f : RuleId → RuleId}

theorem settled_mapRules (node : Outline) (grew : Bool) :
    (settled node grew).mapRules f = settled (node.mapRules f) grew := by
  rw [settled, settled, Unfolded.mapRules, Outline.isDeferred_mapRules]

theorem deferRest_map (id : RuleId) (children : List RuleId) :
    deferRest id (children.map f) = (deferRest id children).map (Outline.mapRules f) := by
  simp only [deferRest, List.zipIdx_map, List.map_map]
  refine List.map_congr_left ?_
  rintro ⟨child, index⟩ -
  simp [Outline.ofRule, Outline.mapRules]

section Wrapped

variable {wrapped : Grammar} {target : RuleId} (h : language.grammar.AddsWrapper target wrapped)
  (hrules : ∀ type, language.types.rule? type ≠ some language.grammar.next)
  (hfinds : language.grammar.SameFinds wrapped)
include h hrules hfinds

/-- Unfolding any other rule comes to the same, if that holds one level deeper. -/
theorem unfoldWithin_succ_withGrammar {fuel fuel' : Nat} {openBlock : Bool} {id : RuleId}
    {node : Outline} {unfolded unfolded' : Unfolded} (hid : id ≠ language.grammar.next)
    (ih : ∀ {fuel openBlock rule node unfolded unfolded'},
      language.unfoldWithin fuel scope openBlock (rule.map (language.grammar.unwrap target))
        (node.mapRules (language.grammar.unwrap target)) = some unfolded →
      (language.withGrammar wrapped).unfoldWithin fuel' scope openBlock rule node =
        some unfolded' →
      unfolded'.mapRules (language.grammar.unwrap target) = unfolded)
    (hunfolded : language.unfoldWithin (fuel + 1) scope openBlock (some id)
      (node.mapRules (language.grammar.unwrap target)) = some unfolded)
    (hunfolded' : (language.withGrammar wrapped).unfoldWithin (fuel' + 1) scope openBlock (some id)
      node = some unfolded') :
    unfolded'.mapRules (language.grammar.unwrap target) = unfolded := by
  have hunwrap : language.grammar.unwrap target id = id := Grammar.unwrap_of_ne hid
  have hblank : ∀ mark, (Outline.blank mark).mapRules (language.grammar.unwrap target) =
      .blank mark := fun mark => by rw [Outline.mapRules]
  rw [unfoldWithin, ← h.kind?_of_ne hid] at hunfolded
  rw [unfoldWithin, withGrammar_grammar] at hunfolded'
  cases hkind : wrapped.kind? id with
  | none =>
      rw [hkind] at hunfolded hunfolded'
      cases hunfolded
      cases hunfolded'
      rfl
  | some kind =>
      rw [hkind, Option.map_some] at hunfolded
      rw [hkind] at hunfolded'
      cases kind with
      | leaf leaf =>
          cases hunfolded
          cases hunfolded'
          rw [settled_mapRules, Outline.fill_mapRules, h.displayName_of_ne hid]
      | freeWord free =>
          cases hunfolded
          cases hunfolded'
          rw [settled_mapRules, Outline.fillFree_mapRules hfinds hunwrap,
            Outline.taggedFree_mapRules hfinds hunwrap]
      | sequence children singleToken isError =>
          cases isError with
          | true =>
              cases hunfolded
              cases hunfolded'
              exact settled_mapRules ..
          | false =>
              cases children with
              | nil =>
                  cases hunfolded
                  cases hunfolded'
                  rw [settled_mapRules, Outline.mapRules, Outline.mark_mapRules,
                    h.displayName_of_ne hid, List.map_nil]
              | cons first rest =>
                  obtain ⟨head, hhead, rfl⟩ := Option.map_eq_some_iff.1 hunfolded
                  obtain ⟨head', hhead', rfl⟩ := Option.map_eq_some_iff.1 hunfolded'
                  rw [← hblank, ← Option.map_some] at hhead
                  rw [← ih hhead hhead', settled_mapRules, Outline.mapRules, Outline.mark_mapRules,
                    h.displayName_of_ne hid, List.map_cons, ← deferRest_map]
                  rfl
      | choice branches =>
          obtain ⟨inner, hinner, rfl⟩ := Option.map_eq_some_iff.1 hunfolded
          obtain ⟨inner', hinner', rfl⟩ := Option.map_eq_some_iff.1 hunfolded'
          have hbranches : inner'.map (Unfolded.mapRules (language.grammar.unwrap target)) = inner := by
            refine map_eq_of_mapM ?_ hinner hinner'
            intro branch _ unfolded unfolded' hbranch hbranch'
            rw [← hblank, ← Option.map_some] at hbranch
            exact ih hbranch hbranch'
          rw [settled_mapRules, Outline.mapRules, Outline.mark_mapRules, ← hbranches, List.map_map,
            List.map_map]
          rfl
      | block body endKeyword =>
          cases openBlock with
          | true => exact ih hunfolded hunfolded'
          | false =>
              cases hunfolded
              cases hunfolded'
              rw [settled_mapRules]
              simp [Outline.mapRules, Outline.ofWord, Outline.fill]
      | wrapper wrapping inner => exact ih hunfolded hunfolded'
      | typeLoad load =>
          simp only [RuleKind.mapReferences, withGrammar_types] at hunfolded hunfolded'
          cases scope with
          | none =>
              cases hunfolded
              cases hunfolded'
              exact settled_mapRules ..
          | some current =>
              simp only at hunfolded hunfolded'
              split at hunfolded
              · next hload =>
                  rw [if_pos hload] at hunfolded'
                  cases hunfolded
                  cases hunfolded'
                  rw [settled_mapRules, Outline.mapRules, Outline.mark_mapRules]
              · next hload =>
                  rw [if_neg hload] at hunfolded'
                  cases hunfolded
                  cases hunfolded'
                  exact settled_mapRules ..
      | typeCommand =>
          simp only [RuleKind.mapReferences, withGrammar_types, withGrammar_settings]
            at hunfolded hunfolded'
          cases hrule : scope.bind language.types.rule? with
          | none =>
              rw [hrule] at hunfolded hunfolded'
              cases hunfolded
              cases hunfolded'
              exact settled_mapRules ..
          | some rule =>
              obtain ⟨type, -, htype⟩ := Option.bind_eq_some_iff.1 hrule
              have hne : rule ≠ language.grammar.next := fun heq => hrules type (heq ▸ htype)
              cases hexpand : language.settings.expandTypeCommands with
              | true =>
                  simp only [hrule, hexpand, if_true] at hunfolded hunfolded'
                  obtain ⟨inner, hinner, rfl⟩ := Option.map_eq_some_iff.1 hunfolded
                  obtain ⟨inner', hinner', rfl⟩ := Option.map_eq_some_iff.1 hunfolded'
                  rw [← Grammar.unwrap_of_ne hne, ← Option.map_some] at hinner
                  rw [← ih hinner hinner', settled_mapRules]
                  rfl
              | false =>
                  simp only [hrule, hexpand, Bool.false_eq_true, if_false] at hunfolded hunfolded'
                  cases hunfolded
                  cases hunfolded'
                  exact settled_mapRules ..
      | unknown label =>
          cases hunfolded
          cases hunfolded'
          exact settled_mapRules ..

/-- Where unfolding ends with the wrapper and without it, it comes to the same. -/
theorem unfoldWithin_withGrammar {fuel fuel' : Nat} {openBlock : Bool} {rule : Option RuleId}
    {node : Outline} {unfolded unfolded' : Unfolded}
    (hunfolded : language.unfoldWithin fuel scope openBlock
      (rule.map (language.grammar.unwrap target))
      (node.mapRules (language.grammar.unwrap target)) = some unfolded)
    (hunfolded' : (language.withGrammar wrapped).unfoldWithin fuel' scope openBlock rule node =
      some unfolded') :
    unfolded'.mapRules (language.grammar.unwrap target) = unfolded := by
  induction fuel' generalizing fuel openBlock rule node unfolded unfolded' with
  | zero => cases hunfolded'
  | succ fuel' ih =>
      cases fuel with
      | zero => cases hunfolded
      | succ fuel =>
          cases rule with
          | none =>
              cases hunfolded
              cases hunfolded'
              rfl
          | some id =>
              rw [Option.map_some] at hunfolded
              by_cases hid : id = language.grammar.next
              · -- the wrapper is left for the rule it stands for
                subst hid
                simp only [unfoldWithin, withGrammar_grammar, h.kind?_next] at hunfolded'
                have htarget : (some target).map (language.grammar.unwrap target) = some target := by
                  rw [Option.map_some, Grammar.unwrap_of_ne h.ne_next]
                rw [Grammar.unwrap_next, ← htarget] at hunfolded
                exact ih hunfolded hunfolded'
              · rw [Grammar.unwrap_of_ne hid] at hunfolded
                exact unfoldWithin_succ_withGrammar h hrules hfinds hid ih hunfolded hunfolded'

/-- Unfolding with the wrapper ends where it does without, and comes to the same. -/
theorem unfold_withGrammar {openBlock : Bool} {rule : Option RuleId} {node : Outline}
    {unfolded : Unfolded}
    (hunfolded : language.unfold scope openBlock (rule.map (language.grammar.unwrap target))
      (node.mapRules (language.grammar.unwrap target)) = some unfolded) :
    ((language.withGrammar wrapped).unfold scope openBlock rule node).map
      (Unfolded.mapRules (language.grammar.unwrap target)) = some unfolded := by
  have hends := (isSome_unfoldWithin ..).symm.trans (Option.isSome_iff_exists.2 ⟨_, hunfolded⟩)
  have hfuel : language.unfoldFuel + language.detours scope target language.unfoldFuel ≤
      (language.withGrammar wrapped).unfoldFuel := by
    have htwo : language.detours scope target language.unfoldFuel ≤ 2 := detours_le_two ..
    simp only [unfoldFuel, withGrammar_grammar, h.size] at htwo ⊢
    omega
  have hends' := endsWithin_withGrammar h hrules hends hfuel
  rw [← isSome_unfoldWithin _ _ _ node] at hends'
  obtain ⟨unfolded', hunfolded'⟩ := Option.isSome_iff_exists.1 hends'
  rw [unfold, hunfolded', Option.map_some,
    unfoldWithin_withGrammar h hrules hfinds hunfolded hunfolded']

end Wrapped

end Language

end Typeahead
