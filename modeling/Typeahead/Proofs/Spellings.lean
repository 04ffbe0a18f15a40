/-
Hints show what an outline spells.

An outline spells word lists: a choice those of its branches, a sequence the concatenations of those
of its parts, where a part that spells nothing does not count.  Hints may be merged, at any join of
any depth.  A merged hint *generalizes* a word list if it has the same length and differs from it
only by `<...>`.  Every hint generalizes some spelling, and every spelling is generalized by some
hint; where no join goes beyond the cap, the hints are the spellings.

Main definitions:

* `Typeahead.Hint.Generalizes` — a hint is a word list with some words replaced by `<...>`;
* `Typeahead.Hint.concatenations` — one spelling of each part that spells anything;
* `Typeahead.Outline.spellings` — the word lists that an outline spells;
* `Typeahead.Hint.Depicts` — hints generalize spellings and leave none out;
* `Typeahead.Outline.joinsFit` — no join goes beyond the cap.

Main results:

* `Typeahead.Hint.Depicts.join` — joined hints depict the concatenated spellings;
* `Typeahead.Outline.shapes_depict` — the hints of an outline depict its spellings;
* `Typeahead.Outline.shapes_generalize_spellings` — and are its spellings where nothing is merged.
-/

import Mathlib.Data.List.Sections
import Typeahead.Outline.Shapes
import Typeahead.Proofs.Hints

set_option relaxedAutoImplicit false
set_option autoImplicit false

namespace Typeahead

namespace Hint

variable {cap : Nat} {lhs rhs : List Hint}

/-! ### Generalizing -/

/-- The hint has the words of the other one, or `<...>` in their place. -/
def Generalizes (hint other : Hint) : Prop :=
  List.Forall₂ (fun shown word => shown = word ∨ shown = variedText) hint other

theorem Generalizes.refl (hint : Hint) : hint.Generalizes hint :=
  List.forall₂_same.2 fun _ _ => .inl rfl

theorem Generalizes.trans {first second third : Hint} (h : first.Generalizes second)
    (h' : second.Generalizes third) : first.Generalizes third := by
  unfold Generalizes at h h' ⊢
  induction h generalizing third with
  | nil => exact h'
  | cons hhead _ ih =>
      cases h' with
      | cons hhead' htail' =>
          refine .cons ?_ (ih htail')
          rcases hhead with rfl | rfl
          · exact hhead'
          · exact .inr rfl

theorem Generalizes.append {first second first' second' : Hint} (h : first.Generalizes first')
    (h' : second.Generalizes second') : (first ++ second).Generalizes (first' ++ second') :=
  List.rel_append h h'

theorem Replaces.generalizes {hints : List Hint} {original hint : Hint}
    (h : Replaces hints original hint) : hint.Generalizes original := by
  refine List.forall₂_iff_get.2 ⟨h.length_eq, ?_⟩
  intro j hj hj'
  rcases h.keeps_or_differ j hj' with hsame | ⟨hvaried, -⟩
  · rw [List.getElem?_eq_getElem hj, List.getElem?_eq_getElem hj'] at hsame
    exact .inl (Option.some.inj hsame)
  · rw [List.getElem?_eq_getElem hj] at hvaried
    exact .inr (Option.some.inj hvaried)

/-- A joined shape is a left shape before one that generalizes a right shape. -/
theorem exists_generalizes_of_mem_join {hint : Hint} (hlhs : lhs ≠ []) (hrhs : rhs ≠ [])
    (h : hint ∈ join cap lhs rhs) :
    ∃ left ∈ lhs, ∃ right ∈ rhs, ∃ ending : Hint, hint = left ++ ending ∧
      ending.Generalizes right := by
  by_cases hcap : combinations lhs rhs ≤ cap
  · rw [join_eq_joinAll hlhs hrhs hcap] at h
    obtain ⟨left, hleft, right, hright, rfl⟩ := mem_joinAll.1 h
    exact ⟨left, hleft, right, hright, right, rfl, .refl right⟩
  · rw [join_eq_joinMerged hlhs hrhs (by omega)] at h
    obtain ⟨left, hleft, ending, hending, rfl⟩ := mem_joinAll.1 h
    obtain ⟨n, hn, rfl⟩ := List.mem_map.1 hending
    have hlength := mem_increasingLengths.1 hn
    obtain ⟨-, right, hright, rfl⟩ := mem_lengths.1 hlength
    exact ⟨left, hleft, right, hright, _, rfl,
      ((isMerge_take hlength).replaces hright).generalizes⟩

/-! ### Concatenations -/

/-- Joining without a cap: nothing is merged. -/
def follow (lhs rhs : List Hint) : List Hint :=
  if lhs.isEmpty then rhs else if rhs.isEmpty then lhs else joinAll lhs rhs

/-- One spelling after another, one of each part that spells anything. -/
def concatenations (spellings : List (List Hint)) : List Hint :=
  match spellings.filter fun own => !own.isEmpty with
  | [] => []
  | live => live.sections.map List.flatten

@[simp] theorem follow_nil_left (rhs : List Hint) : follow [] rhs = rhs := rfl

@[simp] theorem follow_nil_right (lhs : List Hint) : follow lhs [] = lhs := by
  cases lhs <;> rfl

theorem follow_eq_joinAll (hlhs : lhs ≠ []) (hrhs : rhs ≠ []) :
    follow lhs rhs = joinAll lhs rhs := by
  rw [follow, if_neg (by simpa using hlhs), if_neg (by simpa using hrhs)]

theorem join_eq_follow (hcap : lhs.length * rhs.length ≤ cap) :
    join cap lhs rhs = follow lhs rhs := by
  rw [join, follow]
  split
  · rfl
  · split
    · rfl
    · rw [if_neg (Nat.not_lt.2 (combinations_le_iff.2 (.inl hcap)))]

theorem mem_follow {hint : Hint} :
    hint ∈ follow lhs rhs ↔ lhs = [] ∧ hint ∈ rhs ∨ rhs = [] ∧ hint ∈ lhs ∨
      ∃ left ∈ lhs, ∃ right ∈ rhs, hint = left ++ right := by
  by_cases hlhs : lhs = []
  · subst hlhs
    simp
  · by_cases hrhs : rhs = []
    · subst hrhs
      simp
    · simp only [follow_eq_joinAll hlhs hrhs, mem_joinAll, hlhs, hrhs, false_and, false_or]

theorem joinAll_assoc (first second third : List Hint) :
    joinAll (joinAll first second) third = joinAll first (joinAll second third) := by
  simp only [joinAll, List.map_flatMap, List.map_map, List.flatMap_assoc, List.flatMap_map,
    Function.comp_def, List.append_assoc]

theorem follow_assoc (first second third : List Hint) :
    follow (follow first second) third = follow first (follow second third) := by
  by_cases hfirst : first = []
  · rw [hfirst, follow_nil_left, follow_nil_left]
  · by_cases hsecond : second = []
    · rw [hsecond, follow_nil_left, follow_nil_right]
    · by_cases hthird : third = []
      · rw [hthird, follow_nil_right, follow_nil_right]
      · rw [follow_eq_joinAll hfirst hsecond, follow_eq_joinAll hsecond hthird,
          follow_eq_joinAll (joinAll_ne_nil hfirst hsecond) hthird,
          follow_eq_joinAll hfirst (joinAll_ne_nil hsecond hthird), joinAll_assoc]

theorem sections_cons_flatten (own : List Hint) (live : List (List Hint)) :
    (own :: live).sections.map List.flatten = joinAll own (live.sections.map List.flatten) := by
  simp only [List.sections, joinAll, List.map_flatMap, List.map_map, List.flatMap_map,
    Function.comp_def, List.flatten_cons]

theorem sections_flatten_ne_nil {live : List (List Hint)} (h : ∀ own ∈ live, own ≠ []) :
    live.sections.map List.flatten ≠ [] := by
  induction live with
  | nil => simp
  | cons own live ih =>
      rw [sections_cons_flatten]
      exact joinAll_ne_nil (h own (List.mem_cons_self ..))
        (ih fun other hother => h other (List.mem_cons_of_mem _ hother))

/-- The concatenations part by part. -/
theorem concatenations_cons (own : List Hint) (rest : List (List Hint)) :
    concatenations (own :: rest) = follow own (concatenations rest) := by
  by_cases hown : own = []
  · rw [hown, follow_nil_left]
    rfl
  · have hlive : ∀ other ∈ rest.filter (fun own => !own.isEmpty), other ≠ [] := by
      intro other hother
      simpa using (List.mem_filter.1 hother).2
    rw [concatenations, concatenations, List.filter_cons_of_pos (by simpa using hown)]
    cases hrest : rest.filter fun own => !own.isEmpty with
    | nil => simp [List.sections, Function.comp_def]
    | cons other live =>
        rw [hrest] at hlive
        exact (sections_cons_flatten own _).trans
          (follow_eq_joinAll hown (sections_flatten_ne_nil hlive)).symm

/-! ### Depicting -/

/-- Every hint has words and generalizes a spelling, and every spelling is generalized by a
hint. -/
structure Depicts (hints spellings : List Hint) : Prop where
  nil_not_mem : [] ∉ hints
  sound : ∀ hint ∈ hints, ∃ spelling ∈ spellings, hint.Generalizes spelling
  complete : ∀ spelling ∈ spellings, ∃ hint ∈ hints, hint.Generalizes spelling

variable {left right : List Hint}

theorem Depicts.eq_nil_iff (h : Depicts lhs left) : lhs = [] ↔ left = [] := by
  constructor
  · rintro rfl
    refine List.eq_nil_iff_forall_not_mem.2 fun spelling hmem => ?_
    obtain ⟨hint, hhint, -⟩ := h.complete spelling hmem
    cases hhint
  · rintro rfl
    refine List.eq_nil_iff_forall_not_mem.2 fun hint hmem => ?_
    obtain ⟨spelling, hspelling, -⟩ := h.sound hint hmem
    cases hspelling

/-- Joined hints depict the concatenated spellings, merged or not. -/
theorem Depicts.join (cap : Nat) (h : Depicts lhs left) (h' : Depicts rhs right) :
    Depicts (join cap lhs rhs) (follow left right) := by
  by_cases hlhs : lhs = []
  · rw [h.eq_nil_iff.1 hlhs, hlhs, join_nil_left, follow_nil_left]
    exact h'
  · by_cases hrhs : rhs = []
    · rw [h'.eq_nil_iff.1 hrhs, hrhs, join_nil_right, follow_nil_right]
      exact h
    · rw [follow_eq_joinAll (mt h.eq_nil_iff.2 hlhs) (mt h'.eq_nil_iff.2 hrhs)]
      refine ⟨?_, ?_, ?_⟩
      · intro hnil
        obtain ⟨first, hfirst, _, _, ending, heq, -⟩ :=
          exists_generalizes_of_mem_join hlhs hrhs hnil
        rw [(List.append_eq_nil_iff.1 heq.symm).1] at hfirst
        exact h.nil_not_mem hfirst
      · intro hint hhint
        obtain ⟨first, hfirst, second, hsecond, ending, rfl, hending⟩ :=
          exists_generalizes_of_mem_join hlhs hrhs hhint
        obtain ⟨spelling, hspelling, hgen⟩ := h.sound first hfirst
        obtain ⟨spelling', hspelling', hgen'⟩ := h'.sound second hsecond
        exact ⟨spelling ++ spelling',
          mem_joinAll.2 ⟨spelling, hspelling, spelling', hspelling', rfl⟩,
          hgen.append (hending.trans hgen')⟩
      · intro both hboth
        obtain ⟨spelling, hspelling, spelling', hspelling', rfl⟩ := mem_joinAll.1 hboth
        obtain ⟨first, hfirst, hgen⟩ := h.complete spelling hspelling
        obtain ⟨second, hsecond, hgen'⟩ := h'.complete spelling' hspelling'
        obtain ⟨ending, hmem, hreplaces⟩ := exists_replaces_mem_join cap hfirst hsecond
          fun hnil => h'.nil_not_mem (hnil ▸ hsecond)
        exact ⟨first ++ ending, hmem, hgen.append (hreplaces.generalizes.trans hgen')⟩

/-- Without merging, joining depends on which hints there are only. -/
theorem mem_join_iff_mem_follow (hcap : lhs.length * rhs.length ≤ cap)
    (hleft : ∀ hint, hint ∈ lhs ↔ hint ∈ left) (hright : ∀ hint, hint ∈ rhs ↔ hint ∈ right)
    {hint : Hint} : hint ∈ join cap lhs rhs ↔ hint ∈ follow left right := by
  have hleftNil : lhs = [] ↔ left = [] := by
    simp only [List.eq_nil_iff_forall_not_mem, hleft]
  have hrightNil : rhs = [] ↔ right = [] := by
    simp only [List.eq_nil_iff_forall_not_mem, hright]
  rw [join_eq_follow hcap, mem_follow, mem_follow]
  simp only [hleft, hright, hleftNil, hrightNil]

end Hint

namespace Outline

open Hint

/-! ### The spellings of an outline -/

mutual

/-- The word lists that an outline spells.  `first` says that the node starts the command: anywhere
else a sequence that shows as a single placeholder is spelled by it. -/
def spellings : Bool → Outline → List Hint
  | _, .word _ w => [[w.text]]
  | first, .choice _ branches => branchSpellings first branches
  | first, .sequence _ info parts =>
      match first, info.placeholder? with
      | false, some placeholder => [[placeholder]]
      | _, _ => concatenations (partSpellings first parts)
  | _, .blank _ | _, .deferred _ _ | _, .scope _ _ => []

/-- What any of the branches spells. -/
def branchSpellings : Bool → List Outline → List Hint
  | _, [] => []
  | first, branch :: branches => spellings first branch ++ branchSpellings first branches

/-- What each of the parts spells. -/
def partSpellings : Bool → List Outline → List (List Hint)
  | _, [] => []
  | first, part :: parts => spellings first part :: partSpellings false parts

end

mutual

/-- No join that the hints of the outline take goes beyond the cap. -/
def joinsFit (cap : Nat) : Bool → Outline → Bool
  | first, .choice _ branches => branchJoinsFit cap first branches
  | first, .sequence _ info parts =>
      match first, info.placeholder? with
      | false, some _ => true
      | _, _ => partJoinsFit cap first [] parts
  | _, .blank _ | _, .word _ _ | _, .deferred _ _ | _, .scope _ _ => true

/-- The same for all branches. -/
def branchJoinsFit (cap : Nat) : Bool → List Outline → Bool
  | _, [] => true
  | first, branch :: branches => joinsFit cap first branch && branchJoinsFit cap first branches

/-- The same for parts, each joined to the hints of the parts before. -/
def partJoinsFit (cap : Nat) : Bool → List Hint → List Outline → Bool
  | _, _, [] => true
  | first, joined, part :: parts =>
      joinsFit cap first part &&
        (decide (joined.length * (part.shapes cap first).length ≤ cap) &&
          partJoinsFit cap false (Hint.join cap joined (part.shapes cap first)) parts)

end

variable {cap : Nat}

theorem mem_branchSpellings {first : Bool} {branches : List Outline} {hint : Hint} :
    hint ∈ branchSpellings first branches ↔
      ∃ branch ∈ branches, hint ∈ branch.spellings first := by
  induction branches with
  | nil => simp [branchSpellings]
  | cons branch branches ih => simp [branchSpellings, ih]

theorem mem_shapes_choice {first : Bool} {mark : Mark} {branches : List Outline} {hint : Hint} :
    hint ∈ shapes cap first (.choice mark branches) ↔
      ∃ branch ∈ branches, hint ∈ branch.shapes cap first := by
  rw [shapes]
  simpa using mem_branchShapes first none

theorem branchJoinsFit_iff {first : Bool} {branches : List Outline} :
    branchJoinsFit cap first branches = true ↔
      ∀ branch ∈ branches, branch.joinsFit cap first = true := by
  induction branches with
  | nil => simp [branchJoinsFit]
  | cons branch branches ih => simp [branchJoinsFit, ih]

/-- A sequence either shows as its placeholder, or is read part by part. -/
theorem sequence_cases (cap : Nat) (first : Bool) (mark : Mark) (info : SequenceInfo)
    (parts : List Outline) :
    (∃ placeholder, shapes cap first (.sequence mark info parts) = [[placeholder]] ∧
      spellings first (.sequence mark info parts) = [[placeholder]]) ∨
    (shapes cap first (.sequence mark info parts) = partShapes cap first [] parts ∧
      spellings first (.sequence mark info parts) = concatenations (partSpellings first parts) ∧
      joinsFit cap first (.sequence mark info parts) = partJoinsFit cap first [] parts) := by
  cases first with
  | true => simp [shapes, spellings, joinsFit]
  | false =>
      cases hplaceholder : info.placeholder? with
      | none => simp [shapes, spellings, joinsFit, hplaceholder]
      | some placeholder => simp [shapes, spellings, hplaceholder]

/-! ### Hints and spellings -/

theorem partShapes_depict {first : Bool} {joined before : List Hint} {parts : List Outline}
    (ih : ∀ part ∈ parts, ∀ first, Depicts (part.shapes cap first) (part.spellings first))
    (h : Depicts joined before) :
    Depicts (partShapes cap first joined parts)
      (follow before (concatenations (partSpellings first parts))) := by
  induction parts generalizing first joined before with
  | nil => simpa [partShapes, partSpellings, concatenations] using h
  | cons part parts ihparts =>
      rw [partShapes, partSpellings, concatenations_cons, ← follow_assoc]
      exact ihparts (fun other hother => ih other (List.mem_cons_of_mem _ hother))
        (h.join cap (ih part (List.mem_cons_self ..) first))

/-- The hints of an outline depict its spellings, whatever is merged. -/
theorem shapes_depict (cap : Nat) (first : Bool) (outline : Outline) :
    Depicts (outline.shapes cap first) (outline.spellings first) := by
  have hsingle : ∀ text : String, Depicts [[text]] [[text]] := fun text =>
    ⟨by simp, by simpa using Generalizes.refl [text], by simpa using Generalizes.refl [text]⟩
  induction outline generalizing first with
  | blank mark => exact ⟨by simp [shapes], by simp [shapes], by simp [spellings]⟩
  | deferred mark part => exact ⟨by simp [shapes], by simp [shapes], by simp [spellings]⟩
  | scope mark type => exact ⟨by simp [shapes], by simp [shapes], by simp [spellings]⟩
  | word mark w => exact hsingle w.text
  | choice mark branches ih =>
      refine ⟨?_, ?_, ?_⟩
      · intro hnil
        obtain ⟨branch, hbranch, hmem⟩ := mem_shapes_choice.1 hnil
        exact (ih branch hbranch first).nil_not_mem hmem
      · intro hint hhint
        obtain ⟨branch, hbranch, hmem⟩ := mem_shapes_choice.1 hhint
        obtain ⟨spelling, hspelling, hgen⟩ := (ih branch hbranch first).sound hint hmem
        exact ⟨spelling, mem_branchSpellings.2 ⟨branch, hbranch, hspelling⟩, hgen⟩
      · intro spelling hspelling
        obtain ⟨branch, hbranch, hmem⟩ := mem_branchSpellings.1 hspelling
        obtain ⟨hint, hhint, hgen⟩ := (ih branch hbranch first).complete spelling hmem
        exact ⟨hint, mem_shapes_choice.2 ⟨branch, hbranch, hhint⟩, hgen⟩
  | sequence mark info parts ih =>
      rcases sequence_cases cap first mark info parts with
        ⟨placeholder, hshapes, hspellings⟩ | ⟨hshapes, hspellings, -⟩
      · rw [hshapes, hspellings]
        exact hsingle placeholder
      · have hempty : Depicts [] [] := ⟨by simp, by simp, by simp⟩
        rw [hshapes, hspellings, ← follow_nil_left (concatenations _)]
        exact partShapes_depict ih hempty

theorem mem_partShapes_iff {first : Bool} {joined before : List Hint} {parts : List Outline}
    (ih : ∀ part ∈ parts, ∀ first, part.joinsFit cap first = true →
      ∀ hint, hint ∈ part.shapes cap first ↔ hint ∈ part.spellings first)
    (h : ∀ hint, hint ∈ joined ↔ hint ∈ before)
    (hfit : partJoinsFit cap first joined parts = true) (hint : Hint) :
    hint ∈ partShapes cap first joined parts ↔
      hint ∈ follow before (concatenations (partSpellings first parts)) := by
  induction parts generalizing first joined before with
  | nil => simpa [partShapes, partSpellings, concatenations] using h hint
  | cons part parts ihparts =>
      rw [partJoinsFit, Bool.and_eq_true, Bool.and_eq_true, decide_eq_true_eq] at hfit
      obtain ⟨hpart, hcap, hrest⟩ := hfit
      rw [partShapes, partSpellings, concatenations_cons, ← follow_assoc]
      refine ihparts (fun other hother => ih other (List.mem_cons_of_mem _ hother)) ?_ hrest
      intro hint
      exact mem_join_iff_mem_follow hcap h (ih part (List.mem_cons_self ..) first hpart)

/-- If no join goes beyond the cap, the hints are the spellings. -/
theorem mem_shapes_iff_of_joinsFit {first : Bool} {outline : Outline}
    (h : outline.joinsFit cap first = true) (hint : Hint) :
    hint ∈ outline.shapes cap first ↔ hint ∈ outline.spellings first := by
  induction outline generalizing first hint with
  | blank | deferred | scope | word => simp [shapes, spellings]
  | choice mark branches ih =>
      rw [joinsFit, branchJoinsFit_iff] at h
      rw [mem_shapes_choice, spellings, mem_branchSpellings]
      exact exists_congr fun branch => and_congr_right fun hbranch =>
        ih branch hbranch (h branch hbranch) hint
  | sequence mark info parts ih =>
      rcases sequence_cases cap first mark info parts with
        ⟨placeholder, hshapes, hspellings⟩ | ⟨hshapes, hspellings, hjoins⟩
      · rw [hshapes, hspellings]
      · rw [hshapes, hspellings, ← follow_nil_left (concatenations _)]
        rw [hjoins] at h
        refine mem_partShapes_iff ?_ (fun hint => Iff.rfl) h hint
        exact fun part hpart first hfit hint => ih part hpart hfit hint

/-- No hint is empty, every hint generalizes a spelling, and every spelling is generalized by a
hint.  Where no join goes beyond the cap, the hints are exactly the spellings. -/
theorem shapes_generalize_spellings (cap : Nat) (first : Bool) (outline : Outline) :
    [] ∉ outline.shapes cap first ∧
    (∀ hint ∈ outline.shapes cap first, ∃ spelling ∈ outline.spellings first,
      hint.Generalizes spelling) ∧
    (∀ spelling ∈ outline.spellings first, ∃ hint ∈ outline.shapes cap first,
      hint.Generalizes spelling) ∧
    (outline.joinsFit cap first = true →
      ∀ hint, hint ∈ outline.shapes cap first ↔ hint ∈ outline.spellings first) := by
  obtain ⟨hnil, hsound, hcomplete⟩ := shapes_depict cap first outline
  exact ⟨hnil, hsound, hcomplete, mem_shapes_iff_of_joinsFit⟩

/-- The word `position`, then `here` or a pair of numbers, and then a unit that shows as one
placeholder. -/
def positionOutline : Outline :=
  .sequence {} {} [.ofWord (.literal "position"),
    .choice {} [.ofWord (.literal "here"),
      .sequence {} {} [.ofWord (.pattern "<real>"), .ofWord (.pattern "<real>")]],
    .sequence {} { rule := some ⟨0⟩, name := "unit", singleToken := true }
      [.ofWord (.literal "m")]]

/-- Two positions fit a cap of two, and are merged beyond a cap of one. -/
theorem shapes_generalize_spellings_positionOutline :
    positionOutline.joinsFit 2 true = true ∧
    (∀ hint, hint ∈ positionOutline.shapes 2 true ↔ hint ∈ positionOutline.spellings true) ∧
    positionOutline.spellings true =
      [["position", "here", "<unit>"], ["position", "<real>", "<real>", "<unit>"]] ∧
    positionOutline.shapes 1 true =
      [["position", "<...>", "<unit>"], ["position", "<...>", "<real>", "<unit>"]] := by
  have hfit : positionOutline.joinsFit 2 true = true := by decide +kernel
  obtain ⟨-, -, -, hexact⟩ := shapes_generalize_spellings 2 true positionOutline
  exact ⟨hfit, hexact hfit, by decide +kernel, by decide +kernel⟩

end Outline

end Typeahead
