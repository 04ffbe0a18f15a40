/-
What pruning leaves alone.

Pruning takes branches away from choices and changes nothing else: what stays keeps its mark, and a
sequence that stays keeps all its parts.  Pruning a second time takes nothing more away.  The walk
through a sequence goes by the count of each part as it is pruned, not as it was before, so the
second walk comes upon every part at the place where the first did, and finds there what the first
one left.

None of this depends on how counts are added: the second walk makes the same sums as the first, also
those that wrap around.

Main definitions:

* `Typeahead.Outline.Thinned` — an outline with some branches of choices taken away.

Main results:

* `Typeahead.Outline.thinned_retainOn` — pruning takes branches of choices away only;
* `Typeahead.Outline.retainOn_retainOn` — what stays is left as it is by a second pruning;
* `Typeahead.Outline.pruneSlot_idem_thinned` — the same for a slot, on any machine.
-/

import Mathlib.Data.List.Forall2
import Typeahead.Proofs.MachineNumbers

set_option relaxedAutoImplicit false
set_option autoImplicit false

namespace Typeahead

namespace Outline

variable {arithmetic : Arithmetic} {query : Query}

/-! ### One step through a list -/

theorem retainBranchesOn_cons_iff {index : Nat} {branch : Outline} {branches kept : List Outline} :
    retainBranchesOn arithmetic query index (branch :: branches) = some kept ↔
      ∃ first rest, branch.retainOn arithmetic query index = some first ∧
        retainBranchesOn arithmetic query index branches = some rest ∧
        (first.stays = false ∧ kept = rest ∨ first.stays = true ∧ kept = first.value :: rest) := by
  simp only [retainBranchesOn, Option.bind_eq_some_iff, Option.map_eq_some_iff]
  constructor
  · rintro ⟨first, hfirst, rest, hrest, rfl⟩
    refine ⟨first, rest, hfirst, hrest, ?_⟩
    cases hstays : first.stays <;> simp
  · rintro ⟨first, rest, hfirst, hrest, ⟨hstays, rfl⟩ | ⟨hstays, rfl⟩⟩
    · exact ⟨first, hfirst, kept, hrest, by simp [hstays]⟩
    · exact ⟨first, hfirst, rest, hrest, by simp [hstays]⟩

/-- The walk ends with a part that is ruled out or whose end is unknown, and goes on behind any
other. -/
theorem retainPartsOn_cons_iff {index : Nat} {part : Outline} {parts : List Outline}
    {kept : Retained (List Outline)} :
    retainPartsOn arithmetic query index (part :: parts) = some kept ↔
      ∃ first, part.retainOn arithmetic query index = some first ∧
        (first.stays = false ∧ kept = ⟨first.value :: parts, false⟩ ∨
          first.stays = true ∧ ∃ count, first.value.countOn arithmetic = some count ∧
            (count < 0 ∧ kept = ⟨first.value :: parts, true⟩ ∨
              0 ≤ count ∧ ∃ next rest, arithmetic.addPlaces index count.toNat = some next ∧
                retainPartsOn arithmetic query next parts = some rest ∧
                kept = ⟨first.value :: rest.value, rest.stays⟩)) := by
  rw [retainPartsOn, Option.bind_eq_some_iff]
  refine exists_congr fun first => and_congr_right fun _ => ?_
  cases hstays : first.stays with
  | false => simp [eq_comm]
  | true =>
      simp only [Bool.not_true, Bool.false_eq_true, if_false, Option.bind_eq_some_iff, false_and,
        true_and, false_or, reduceCtorEq]
      refine exists_congr fun count => and_congr_right fun _ => ?_
      by_cases hcount : count < 0
      · simp [hcount, Int.not_le.2 hcount, eq_comm]
      · simp [hcount, Int.not_lt.1 hcount, Option.bind_eq_some_iff, @eq_comm _ kept]

/-! ### Branches taken away -/

/-- The second outline is the first one with some branches of its choices taken away.  The branches
that are left are in order, a sequence has all its parts, and every node that is left has the mark
and all else that it had. -/
inductive Thinned : Outline → Outline → Prop
  | same (outline : Outline) : Thinned outline outline
  | sequence {mark : Mark} {info : SequenceInfo} {parts parts' : List Outline} :
      List.Forall₂ Thinned parts parts' →
      Thinned (.sequence mark info parts) (.sequence mark info parts')
  | choice {mark : Mark} {branches kept branches' : List Outline} : kept.Sublist branches →
      List.Forall₂ Thinned kept branches' →
      Thinned (.choice mark branches) (.choice mark branches')

theorem thinned_retainPartsOn {parts : List Outline} {kept : Retained (List Outline)}
    (ih : ∀ part ∈ parts, ∀ index kept, part.retainOn arithmetic query index = some kept →
      Thinned part kept.value)
    {index : Nat} (h : retainPartsOn arithmetic query index parts = some kept) :
    List.Forall₂ Thinned parts kept.value := by
  induction parts generalizing index kept with
  | nil =>
      cases h
      exact .nil
  | cons part parts ihparts =>
      obtain ⟨first, hfirst, hcases⟩ := retainPartsOn_cons_iff.1 h
      have hpart := ih part (List.mem_cons_self ..) index first hfirst
      have hsame : List.Forall₂ Thinned parts parts :=
        List.forall₂_same.2 fun other _ => .same other
      rcases hcases with ⟨-, rfl⟩ | ⟨-, count, -, ⟨-, rfl⟩ | ⟨-, next, rest, -, hrest, rfl⟩⟩
      · exact .cons hpart hsame
      · exact .cons hpart hsame
      · exact .cons hpart
          (ihparts (fun other hother => ih other (List.mem_cons_of_mem _ hother)) hrest)

theorem thinned_retainBranchesOn {branches branches' : List Outline}
    (ih : ∀ branch ∈ branches, ∀ index kept, branch.retainOn arithmetic query index = some kept →
      Thinned branch kept.value)
    {index : Nat} (h : retainBranchesOn arithmetic query index branches = some branches') :
    ∃ kept : List Outline, kept.Sublist branches ∧ List.Forall₂ Thinned kept branches' := by
  induction branches generalizing branches' with
  | nil =>
      cases h
      exact ⟨[], .slnil, .nil⟩
  | cons branch branches ihbranches =>
      obtain ⟨first, rest, hfirst, hrest, hcases⟩ := retainBranchesOn_cons_iff.1 h
      obtain ⟨kept, hkept, hthinned⟩ :=
        ihbranches (fun other hother => ih other (List.mem_cons_of_mem _ hother)) hrest
      rcases hcases with ⟨-, rfl⟩ | ⟨-, rfl⟩
      · exact ⟨kept, hkept.cons branch, hthinned⟩
      · exact ⟨branch :: kept, hkept.cons_cons branch,
          .cons (ih branch (List.mem_cons_self ..) index first hfirst) hthinned⟩

/-- Pruning takes branches of choices away and changes nothing else. -/
theorem thinned_retainOn {outline : Outline} {index : Nat} {kept : Retained Outline}
    (h : outline.retainOn arithmetic query index = some kept) : Thinned outline kept.value := by
  induction outline generalizing index kept with
  | blank | word | deferred | scope =>
      cases h
      exact .same _
  | sequence mark info parts ih =>
      rw [retainOn] at h
      split at h
      · cases h
        exact .same _
      · obtain ⟨parts', hparts, rfl⟩ := Option.map_eq_some_iff.1 h
        exact .sequence (thinned_retainPartsOn (fun part hpart _ _ => ih part hpart) hparts)
  | choice mark branches ih =>
      rw [retainOn] at h
      split at h
      · cases h
        exact .same _
      · obtain ⟨branches', hbranches, rfl⟩ := Option.map_eq_some_iff.1 h
        obtain ⟨kept, hkept, hthinned⟩ :=
          thinned_retainBranchesOn (fun branch hbranch _ _ => ih branch hbranch) hbranches
        exact .choice hkept hthinned

/-! ### Pruning twice -/

/-- The second walk through a sequence meets every part where the first one did, because both go by
the counts of the pruned parts. -/
theorem retainPartsOn_retainPartsOn {parts : List Outline} {kept : Retained (List Outline)}
    (ih : ∀ part ∈ parts, ∀ index kept, part.retainOn arithmetic query index = some kept →
      kept.stays = true → kept.value.retainOn arithmetic query index = some kept)
    {index : Nat} (h : retainPartsOn arithmetic query index parts = some kept)
    (hstays : kept.stays = true) :
    retainPartsOn arithmetic query index kept.value = some kept := by
  induction parts generalizing index kept with
  | nil =>
      cases h
      rfl
  | cons part parts ihparts =>
      obtain ⟨first, hfirst, hcases⟩ := retainPartsOn_cons_iff.1 h
      have hpart := ih part (List.mem_cons_self ..) index first hfirst
      rcases hcases with ⟨-, rfl⟩ |
        ⟨hkept, count, hcount, ⟨hneg, rfl⟩ | ⟨hpos, next, rest, hnext, hrest, rfl⟩⟩
      · cases hstays
      · exact retainPartsOn_cons_iff.2
          ⟨first, hpart hkept, .inr ⟨hkept, count, hcount, .inl ⟨hneg, rfl⟩⟩⟩
      · have hagain :=
          ihparts (fun other hother => ih other (List.mem_cons_of_mem _ hother)) hrest hstays
        exact retainPartsOn_cons_iff.2
          ⟨first, hpart hkept, .inr ⟨hkept, count, hcount,
            .inr ⟨hpos, next, rest, hnext, hagain, rfl⟩⟩⟩

theorem retainBranchesOn_retainBranchesOn {branches kept : List Outline}
    (ih : ∀ branch ∈ branches, ∀ index kept, branch.retainOn arithmetic query index = some kept →
      kept.stays = true → kept.value.retainOn arithmetic query index = some kept)
    {index : Nat} (h : retainBranchesOn arithmetic query index branches = some kept) :
    retainBranchesOn arithmetic query index kept = some kept := by
  induction branches generalizing kept with
  | nil =>
      cases h
      rfl
  | cons branch branches ihbranches =>
      obtain ⟨first, rest, hfirst, hrest, hcases⟩ := retainBranchesOn_cons_iff.1 h
      have hagain :=
        ihbranches (fun other hother => ih other (List.mem_cons_of_mem _ hother)) hrest
      rcases hcases with ⟨-, rfl⟩ | ⟨hstays, rfl⟩
      · exact hagain
      · have hbranch := ih branch (List.mem_cons_self ..) index first hfirst hstays
        exact retainBranchesOn_cons_iff.2 ⟨first, rest, hbranch, hagain, .inr ⟨hstays, rfl⟩⟩

/-- What stays is left as it is by a second pruning. -/
theorem retainOn_retainOn {outline : Outline} {index : Nat} {kept : Retained Outline}
    (h : outline.retainOn arithmetic query index = some kept) (hstays : kept.stays = true) :
    kept.value.retainOn arithmetic query index = some kept := by
  induction outline generalizing index kept with
  | blank | word | deferred | scope =>
      cases h
      rfl
  | sequence mark info parts ih =>
      rw [retainOn] at h
      split at h
      · next hplace =>
          cases h
          rw [retainOn, if_pos hplace]
      · next hplace =>
          obtain ⟨parts', hparts, rfl⟩ := Option.map_eq_some_iff.1 h
          have hagain :=
            retainPartsOn_retainPartsOn (fun part hpart _ _ => ih part hpart) hparts hstays
          rw [retainOn, if_neg hplace, hagain, Option.map_some]
  | choice mark branches ih =>
      rw [retainOn] at h
      split at h
      · next hplace =>
          cases h
          rw [retainOn, if_pos hplace]
      · next hplace =>
          obtain ⟨branches', hbranches, rfl⟩ := Option.map_eq_some_iff.1 h
          have hagain := retainBranchesOn_retainBranchesOn
            (fun branch hbranch _ _ => ih branch hbranch) hbranches
          rw [retainOn, if_neg hplace, hagain, Option.map_some]

theorem pruneSlot_eq_some_iff {outline pruned : Outline} {index : Nat} :
    pruneSlot arithmetic query index (some outline) = some (some pruned) ↔
      outline.retainOn arithmetic query index = some ⟨pruned, true⟩ := by
  rw [pruneSlot]
  cases outline.retainOn arithmetic query index with
  | none => simp
  | some kept =>
      cases kept with
      | mk value stays => cases stays <;> simp

/-- Pruning a slot twice is the same as pruning it once. -/
theorem pruneSlot_bind_pruneSlot (arithmetic : Arithmetic) (query : Query) (index : Nat)
    (slot : Option Outline) :
    (pruneSlot arithmetic query index slot).bind (pruneSlot arithmetic query index) =
      pruneSlot arithmetic query index slot := by
  cases hpruned : pruneSlot arithmetic query index slot with
  | none => rfl
  | some left =>
      cases left with
      | none => rfl
      | some pruned =>
          cases slot with
          | none => cases hpruned
          | some outline =>
              have hretain := pruneSlot_eq_some_iff.1 hpruned
              exact pruneSlot_eq_some_iff.2 (retainOn_retainOn hretain rfl)

/-- Where the bulk is not too great, a slot is pruned as with exact numbers. -/
theorem pruneSlot_of_rightUpTo {greatest last : Nat} (h : arithmetic.RightUpTo greatest last)
    {outline : Outline} {index : Nat} (hgreatest : outline.bulk ≤ greatest)
    (hlast : query.words.length + outline.bulk ≤ last) :
    pruneSlot arithmetic query index (some outline) = some (outline.prune query index) := by
  rw [pruneSlot, retainOn_eq_retain h hgreatest hlast, Option.map_some, prune]

/-- However a machine adds, pruning a slot twice is the same as pruning it once, and what is left is
the outline with some branches of its choices taken away.  Pruning comes to an end where sums wrap
around.  Where no sum is too great, wrapping or checked ones are exact. -/
theorem pruneSlot_idem_thinned (arithmetic : Arithmetic) (query : Query) (index : Nat)
    (slot : Option Outline) :
    ((pruneSlot arithmetic query index slot).bind (pruneSlot arithmetic query index) =
        pruneSlot arithmetic query index slot ∧
      ∀ outline pruned, slot = some outline →
        pruneSlot arithmetic query index slot = some (some pruned) → Thinned outline pruned) ∧
    (∃ left, pruneSlot .wrapping query index slot = some left) ∧
    (pruneSlot .exact query index slot =
      some (slot.bind fun outline => outline.prune query index)) ∧
    (∀ outline, slot = some outline → outline.bulk < Nat.pow 2 31 →
      query.words.length + outline.bulk < Nat.pow 2 64 →
      arithmetic = .wrapping ∨ arithmetic = .checking →
        pruneSlot arithmetic query index slot = some (outline.prune query index)) := by
  refine ⟨⟨pruneSlot_bind_pruneSlot arithmetic query index slot, ?_⟩, ?_, ?_, ?_⟩
  · rintro outline pruned rfl hpruned
    exact thinned_retainOn (pruneSlot_eq_some_iff.1 hpruned)
  · cases slot with
    | none => exact ⟨none, rfl⟩
    | some outline =>
        obtain ⟨kept, hkept⟩ := exists_retainOn Arithmetic.wrapping_total outline index
        rw [pruneSlot, hkept]
        exact ⟨_, rfl⟩
  · cases slot with
    | none => rfl
    | some outline =>
        exact pruneSlot_of_rightUpTo (Arithmetic.exact_rightUpTo _ _) (Nat.le_refl _)
          (Nat.le_refl _)
  · rintro outline rfl hbulk hplaces (rfl | rfl)
    · exact pruneSlot_of_rightUpTo Arithmetic.wrapping_rightUpTo (Nat.le_sub_one_of_lt hbulk)
        (Nat.le_sub_one_of_lt hplaces)
    · exact pruneSlot_of_rightUpTo Arithmetic.checking_rightUpTo (Nat.le_sub_one_of_lt hbulk)
        (Nat.le_sub_one_of_lt hplaces)

/-- The commands `set off` and `set on now`. -/
def settingOutline : Outline :=
  .sequence {} {} [.ofWord (.literal "set"),
    .choice {} [.ofWord (.literal "off"),
      .sequence {} {} [.ofWord (.literal "on"), .ofWord (.literal "now")]]]

/-- Behind `set of` a machine takes the longer branch away, and a second pruning finds nothing
more. -/
theorem pruneSlot_idem_thinned_settingOutline :
    ∃ pruned, (∀ arithmetic : Arithmetic, arithmetic = .wrapping ∨ arithmetic = .checking →
        pruneSlot arithmetic ⟨["set", "of"], 1, .hint⟩ 0 (some settingOutline) =
          some (some pruned) ∧
        pruneSlot arithmetic ⟨["set", "of"], 1, .hint⟩ 0 (some pruned) = some (some pruned)) ∧
      Thinned settingOutline pruned ∧ settingOutline.count = 3 ∧ pruned.count = 2 := by
  have hcount : (settingOutline.prune ⟨["set", "of"], 1, .hint⟩ 0).map count = some 2 := by
    decide +kernel
  obtain ⟨pruned, hpruned, hcount⟩ := Option.map_eq_some_iff.1 hcount
  have hboth : ∀ arithmetic : Arithmetic, arithmetic = .wrapping ∨ arithmetic = .checking →
      pruneSlot arithmetic ⟨["set", "of"], 1, .hint⟩ 0 (some settingOutline) = some (some pruned) ∧
      pruneSlot arithmetic ⟨["set", "of"], 1, .hint⟩ 0 (some pruned) = some (some pruned) ∧
      Thinned settingOutline pruned := by
    intro arithmetic hmachine
    obtain ⟨⟨hidem, hthinned⟩, -, -, hright⟩ :=
      pruneSlot_idem_thinned arithmetic ⟨["set", "of"], 1, .hint⟩ 0 (some settingOutline)
    have honce := hright settingOutline rfl (by decide) (by decide) hmachine
    rw [hpruned] at honce
    rw [honce, Option.bind_some] at hidem
    exact ⟨honce, hidem, hthinned _ _ rfl honce⟩
  exact ⟨pruned, fun arithmetic h => ⟨(hboth arithmetic h).1, (hboth arithmetic h).2.1⟩,
    (hboth _ (.inl rfl)).2.2, by decide +kernel, hcount⟩

/-- A sequence of patterns that is longer than a machine can count, and then `now`. -/
def longOutline : Outline :=
  .sequence {} {} [
    .sequence {} {} [.word (Mark.settle {} 2147483647) (.pattern "<name>"),
      .word (Mark.settle {} 2147483647) (.pattern "<name>"), .ofWord (.pattern "<name>"),
      .ofWord (.pattern "<name>")],
    .ofWord (.literal "now")]

/-- Where sums wrap around, `now` is looked for at the first place again. -/
example :
    (pruneSlot .exact ⟨["set"], 0, .hint⟩ 0 (some longOutline)).map Option.isSome = some true ∧
      (pruneSlot .wrapping ⟨["set"], 0, .hint⟩ 0 (some longOutline)).map Option.isSome =
        some false ∧
      (pruneSlot .checking ⟨["set"], 0, .hint⟩ 0 (some longOutline)).isNone = true := by
  decide +kernel

end Outline

end Typeahead
