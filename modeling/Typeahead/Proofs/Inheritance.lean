/-
Inheritance along any bases.

A base may be missing, and the bases may run in a circle, so a climb from a type through its bases
ends at a missing type or at one that it has passed already.  A climb that starts one base higher
passes the same types; only where the bases lead back to the lower type, it passes that type too,
last of all.  So look-up may go on at the base of a type that does not declare a key itself: the one
type that is asked in addition does not declare it either.

Main definitions:

* `Typeahead.TypeTable.Climbs` — a climb through the bases, up to its end;
* `Typeahead.TypeTable.IsAncestry` — what makes a list of types the ancestry of a type.

Main results:

* `Typeahead.TypeTable.climbs_ancestryFrom` — as many steps as there are types are enough for every
  climb to come to its end;
* `Typeahead.TypeTable.ancestry_base` — the ancestry of a base, told from that of the type below;
* `Typeahead.TypeTable.isAncestry_findSymbol?` — a type inherits what its base finds.
-/

import Mathlib.Data.List.Chain
import Mathlib.Data.List.Nodup
import Mathlib.Data.List.Perm.Subperm
import Typeahead.Proofs.DeclaredNames

set_option relaxedAutoImplicit false
set_option autoImplicit false

namespace Typeahead

namespace TypeTable

variable {table : TypeTable} {id base : TypeId} {seen chain chain' : List TypeId}
  {next : Option TypeId} {fuel : Nat}

/-! ### Climbs -/

/-- Going on at `next`, a climb that has passed the types `seen` passes those of a chain and then
ends. -/
inductive Climbs (table : TypeTable) : List TypeId → Option TypeId → List TypeId → Prop
  | top {seen : List TypeId} : Climbs table seen none []
  | missing {seen : List TypeId} {id : TypeId} : ¬ table.Has id → Climbs table seen (some id) []
  | again {seen : List TypeId} {id : TypeId} : id ∈ seen → Climbs table seen (some id) []
  | pass {seen chain : List TypeId} {id : TypeId} :
      table.Has id → id ∉ seen → Climbs table (id :: seen) (table.base? id) chain →
      Climbs table seen (some id) (id :: chain)

namespace Climbs

theorem unique (h : table.Climbs seen next chain) (h' : table.Climbs seen next chain') :
    chain = chain' := by
  induction h generalizing chain' with
  | top =>
      cases h'
      rfl
  | missing hnot =>
      cases h' with
      | missing => rfl
      | again => rfl
      | pass hhas => exact absurd hhas hnot
  | again hseen =>
      cases h' with
      | missing => rfl
      | again => rfl
      | pass _ hnew => exact absurd hseen hnew
  | pass hhas hnew _ ih =>
      cases h' with
      | missing hnot => exact absurd hhas hnot
      | again hseen => exact absurd hseen hnew
      | pass _ _ h' => rw [ih h']

/-- A climb from a type that is there passes it first. -/
theorem exists_eq_cons (h : table.Climbs seen (some id) chain) (hhas : table.Has id)
    (hnew : id ∉ seen) :
    ∃ bases, chain = id :: bases ∧ table.Climbs (id :: seen) (table.base? id) bases := by
  cases h with
  | missing hnot => exact absurd hhas hnot
  | again hseen => exact absurd hseen hnew
  | pass _ _ h => exact ⟨_, rfl, h⟩

theorem not_mem_seen (h : table.Climbs seen next chain) : ∀ id ∈ chain, id ∉ seen := by
  induction h with
  | pass _ hnew _ ih =>
      refine List.forall_mem_cons.2 ⟨hnew, fun id hmem hseen => ?_⟩
      exact ih id hmem (List.mem_cons_of_mem _ hseen)
  | _ => exact List.forall_mem_nil _

theorem nodup (h : table.Climbs seen next chain) : chain.Nodup := by
  induction h with
  | @pass seen chain id _ _ h ih =>
      have hnew : id ∉ chain := fun hmem => h.not_mem_seen id hmem List.mem_cons_self
      exact List.nodup_cons.2 ⟨hnew, ih⟩
  | _ => exact .nil

theorem next_eq (h : table.Climbs seen next chain) : ∀ id ∈ chain.head?, next = some id := by
  cases h with
  | pass => exact fun id hid => hid
  | _ => exact fun id hid => nomatch hid

theorem isChain (h : table.Climbs seen next chain) :
    chain.IsChain fun lower upper => table.base? lower = some upper := by
  induction h with
  | pass _ _ h ih => exact List.isChain_cons.2 ⟨h.next_eq, ih⟩
  | _ => exact .nil

/-- A climb ends below a type that is missing or was passed already, if there is any.  Where the
climb passes no type at all, this is the type to go on at. -/
theorem ends (h : table.Climbs seen next chain) :
    ∀ base ∈ (chain.getLast?.map table.base?).getD next,
      ¬ table.Has base ∨ base ∈ chain ∨ base ∈ seen := by
  induction h with
  | top => exact fun base hbase => nomatch hbase
  | missing hnot =>
      rintro base ⟨⟩
      exact .inl hnot
  | again hseen =>
      rintro base ⟨⟩
      exact .inr (.inr hseen)
  | @pass seen chain id _ _ _ ih =>
      intro base hbase
      have hlast : base ∈ (chain.getLast?.map table.base?).getD (table.base? id) := by
        rw [List.getLast?_cons] at hbase
        cases hchain : chain.getLast? <;> rw [hchain] at hbase <;> exact hbase
      obtain hnot | hmem | hmem := ih base hlast
      · exact .inl hnot
      · exact .inr (.inl (List.mem_cons_of_mem _ hmem))
      · obtain rfl | hmem := List.mem_cons.1 hmem
        · exact .inr (.inl List.mem_cons_self)
        · exact .inr (.inr hmem)

/-- A climb that need not stop at some type passes the same types as one that must, and perhaps that
type at the end: there the climb stops, for its base was passed before. -/
theorem or_append {stops : List TypeId} (h : table.Climbs stops next chain)
    (hstops : ∀ other, other ∈ stops ↔ other = id ∨ other ∈ seen) (hhas : table.Has id)
    (hnew : id ∉ seen) (hbase : ∀ base ∈ table.base? id, next = some base ∨ base ∈ seen) :
    table.Climbs seen next chain ∨ table.Climbs seen next (chain ++ [id]) := by
  induction h generalizing seen with
  | top => exact .inl .top
  | missing hnot => exact .inl (.missing hnot)
  | again hmem =>
      obtain rfl | hseen := (hstops _).1 hmem
      · refine .inr (.pass hhas hnew ?_)
        cases hupper : table.base? _ with
        | none => exact .top
        | some upper =>
            obtain heq | hseen := hbase upper hupper
            · obtain rfl := Option.some_inj.1 heq
              exact .again List.mem_cons_self
            · exact .again (List.mem_cons_of_mem _ hseen)
      · exact .inl (.again hseen)
  | @pass stops chain lower hhasLower hnewLower _ ih =>
      obtain ⟨hne, hnewLower⟩ := not_or.1 (mt (hstops lower).2 hnewLower)
      have hstops' : ∀ other, other ∈ lower :: stops ↔ other = id ∨ other ∈ lower :: seen := by
        intro other
        rw [List.mem_cons, hstops, List.mem_cons, or_left_comm]
      have hnew' : id ∉ lower :: seen := List.not_mem_cons_of_ne_of_not_mem (Ne.symm hne) hnew
      have hbase' : ∀ base ∈ table.base? id,
          table.base? lower = some base ∨ base ∈ lower :: seen := by
        intro base hupper
        obtain heq | hseen := hbase base hupper
        · obtain rfl := Option.some_inj.1 heq
          exact .inr List.mem_cons_self
        · exact .inr (List.mem_cons_of_mem _ hseen)
      obtain h | h := ih hstops' hnew' hbase'
      · exact .inl (.pass hhasLower hnewLower h)
      · exact .inr (.pass hhasLower hnewLower h)

end Climbs

/-! ### Ancestries -/

/-- Distinct types, as many as there are in the table, are all its types. -/
theorem mem_of_size_le (hnodup : seen.Nodup) (hseen : ∀ id ∈ seen, table.Has id)
    (hsize : table.types.size ≤ seen.length) (hhas : table.Has id) : id ∈ seen := by
  have hindex : Function.Injective TypeId.index := by
    rintro ⟨i⟩ ⟨j⟩ ⟨⟩
    rfl
  have hsub : seen.map TypeId.index ⊆ List.range table.types.size := by
    intro i hi
    obtain ⟨other, hother, rfl⟩ := List.mem_map.1 hi
    exact List.mem_range.2 (hseen other hother)
  have hperm : (seen.map TypeId.index).Perm (List.range table.types.size) := by
    refine ((List.Nodup.map hindex hnodup).subperm hsub).perm_of_length_le ?_
    rwa [List.length_range, List.length_map]
  have hmem : id.index ∈ seen.map TypeId.index := hperm.mem_iff.2 (List.mem_range.2 hhas)
  exact (List.mem_map_of_injective hindex).1 hmem

/-- A climb comes to its end within as many steps as there are types left to pass. -/
theorem climbs_ancestryFrom (hnodup : seen.Nodup) (hseen : ∀ id ∈ seen, table.Has id)
    (hfuel : table.types.size ≤ seen.length + fuel) :
    table.Climbs seen next (table.ancestryFrom fuel seen next) := by
  induction fuel generalizing seen next with
  | zero =>
      rw [ancestryFrom]
      cases next with
      | none => exact .top
      | some id =>
          by_cases hhas : table.Has id
          · exact .again (mem_of_size_le hnodup hseen hfuel hhas)
          · exact .missing hhas
  | succ fuel ih =>
      cases next with
      | none =>
          rw [ancestryFrom]
          exact .top
      | some id =>
          rw [ancestryFrom]
          by_cases hhas : table.Has id
          · obtain ⟨info, hinfo⟩ := exists_get? hhas
            have hbase : table.base? id = info.base := by rw [base?, hinfo, Option.bind_some]
            simp only [hinfo]
            split
            · next hmem => exact .again (List.contains_iff_mem.1 hmem)
            · next hnew =>
                rw [List.contains_iff_mem] at hnew
                refine .pass hhas hnew ?_
                rw [← hbase]
                refine ih (List.nodup_cons.2 ⟨hnew, hnodup⟩)
                  (List.forall_mem_cons.2 ⟨hhas, hseen⟩) ?_
                rw [List.length_cons]
                omega
          · simp only [get?_of_not_has hhas]
            exact .missing hhas

theorem climbs_ancestry (table : TypeTable) (id : TypeId) :
    table.Climbs [] (some id) (table.ancestry id) :=
  climbs_ancestryFrom .nil (List.forall_mem_nil _) (Nat.le_add_left _ _)

/-- More steps than there are types change nothing. -/
theorem ancestryFrom_add (table : TypeTable) (id : TypeId) (more : Nat) :
    table.ancestryFrom (table.types.size + more) [] (some id) = table.ancestry id := by
  refine Climbs.unique (climbs_ancestryFrom .nil (List.forall_mem_nil _) ?_)
    (table.climbs_ancestry id)
  rw [List.length_nil]
  omega

/-- The types are those that a climb from `id` passes. -/
structure IsAncestry (table : TypeTable) (id : TypeId) (chain : List TypeId) : Prop where
  eq_nil_iff : chain = [] ↔ ¬ table.Has id
  /-- The first type is the one that the climb starts from. -/
  starts : ∀ first ∈ chain.head?, first = id
  nodup : chain.Nodup
  /-- Every further type is the base of the one before. -/
  climbs : chain.IsChain fun lower upper => table.base? lower = some upper
  /-- The base of the last type is missing or is among the types already. -/
  ends : ∀ last ∈ chain.getLast?, ∀ base ∈ table.base? last, ¬ table.Has base ∨ base ∈ chain

theorem isAncestry_ancestry (table : TypeTable) (id : TypeId) :
    table.IsAncestry id (table.ancestry id) := by
  have h := table.climbs_ancestry id
  refine ⟨?_, ?_, h.nodup, h.isChain, ?_⟩
  · constructor
    · intro hnil hhas
      obtain ⟨bases, hcons, -⟩ := h.exists_eq_cons hhas List.not_mem_nil
      rw [hcons] at hnil
      cases hnil
    · intro hnot
      exact h.unique (.missing hnot)
  · intro first hfirst
    exact (Option.some_inj.1 (h.next_eq first hfirst)).symm
  · intro last hlast base hbase
    have hends := h.ends base
    rw [Option.mem_def.1 hlast] at hends
    simpa using hends hbase

/-- The ancestry of a base continues that of the type below.  Where the bases run in a circle
through that type, it comes last. -/
theorem ancestry_base (hbase : table.base? id = some base) :
    ∃ bases, table.ancestry id = id :: bases ∧
      (table.ancestry base = bases ∨ table.ancestry base = bases ++ [id]) := by
  have hhas : table.Has id := by
    refine Classical.byContradiction fun hnot => ?_
    rw [base?_of_not_has hnot] at hbase
    cases hbase
  obtain ⟨bases, hcons, h⟩ := (table.climbs_ancestry id).exists_eq_cons hhas List.not_mem_nil
  rw [hbase] at h
  refine ⟨bases, hcons, ?_⟩
  have hrest : table.Climbs [] (some base) bases ∨ table.Climbs [] (some base) (bases ++ [id]) := by
    refine h.or_append (fun _ => List.mem_cons) hhas List.not_mem_nil fun other hother => ?_
    exact .inl (hbase.symm.trans hother)
  exact hrest.imp (table.climbs_ancestry base).unique (table.climbs_ancestry base).unique

/-- Of two types that are the base of each other, either comes behind the other. -/
example :
    let table := (({} : TypeTable).add "hull" (some ⟨3⟩)).add "frame" (some ⟨2⟩)
    table.ancestry ⟨2⟩ = [⟨2⟩, ⟨3⟩] ∧ table.ancestry ⟨3⟩ = [⟨3⟩, ⟨2⟩] := by decide

/-! ### Look-up -/

/-- What a type does not declare itself, its base finds for it. -/
theorem findSymbol?_of_base? {key : String} (hown : table.ownSymbol? id key = none)
    (hbase : table.base? id = some base) :
    table.findSymbol? id key = table.findSymbol? base key := by
  obtain ⟨bases, hcons, hrest⟩ := ancestry_base hbase
  have hid : table.findSymbol? id key = bases.findSome? (table.ownSymbol? · key) := by
    rw [findSymbol?, hcons, List.findSome?_cons, hown]
  obtain hrest | hrest := hrest
  · rw [hid, findSymbol?, hrest]
  · -- the type itself is asked once more, in vain
    rw [hid, findSymbol?, hrest, List.findSome?_append, List.findSome?_singleton, hown,
      Option.or_none]

/-- The ancestry of a type does not depend on how long a climb may last, and is right.  Look-up
finds what the type declares itself, and all else as its base does. -/
theorem isAncestry_findSymbol? (table : TypeTable) (id : TypeId) :
    (∀ more, table.ancestryFrom (table.types.size + more) [] (some id) = table.ancestry id) ∧
      table.IsAncestry id (table.ancestry id) ∧
      ∀ key, table.findSymbol? id key =
        (table.ownSymbol? id key).or ((table.base? id).bind (table.findSymbol? · key)) := by
  refine ⟨table.ancestryFrom_add id, table.isAncestry_ancestry id, fun key => ?_⟩
  by_cases hhas : table.Has id
  · cases hown : table.ownSymbol? id key with
    | some symbol => rw [findSymbol?_of_ownSymbol? hhas hown, Option.some_or]
    | none =>
        rw [Option.none_or]
        cases hbase : table.base? id with
        | some base => rw [findSymbol?_of_base? hown hbase, Option.bind_some]
        | none =>
            rw [findSymbol?, ancestry_of_no_base hhas hbase, List.findSome?_singleton, hown,
              Option.bind_none]
  · rw [findSymbol?, (table.isAncestry_ancestry id).eq_nil_iff.2 hhas, List.findSome?_nil,
      ownSymbol?_of_not_has hhas, base?_of_not_has hhas, Option.none_or, Option.bind_none]

end TypeTable

end Typeahead
