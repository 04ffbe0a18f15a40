/-
What pruning keeps.

Pruning walks through a sequence and looks at each part at the place where the one before it ends,
as far as that is known.  Where the branches of a choice differ in length, the walk goes by the
longest branch that is left, so a word behind the choice may be looked at too far on: a command that
agrees with the typed words can be lost.  Pruning keeps exactly the word lists that agree with the
typed words at the places of the walk, and it keeps all that agree if every part before the last of
a sequence has one length.

Main definitions:

* `Typeahead.Outline.Survives` — a word list agrees with the typed words at the places of the walk;
* `Typeahead.Outline.IsSolid` — a word, or a sequence or a choice that is not empty;
* `Typeahead.Outline.Steady` — the parts before the last of a sequence have one length each.

Main results:

* `Typeahead.Outline.retain_yields_iff` — what pruning keeps;
* `Typeahead.Outline.length_le_count` — no word list is longer than the count;
* `Typeahead.Outline.prune_yields` — the surviving word lists, and when no agreeing one is lost;
* `Typeahead.Outline.not_prune_safe` — an agreeing word list may be lost.
-/

import Typeahead.Proofs.Similar

set_option relaxedAutoImplicit false
set_option autoImplicit false

namespace Typeahead

namespace Outline

variable {grammar : Grammar} {query : Query}

/-! ### The places of the walk -/

mutual

/-- The outline yields the words, and each of them is a pattern or is accepted at the place at which
pruning comes upon it.  The walk stops looking behind a part whose end is unknown. -/
def Survives (grammar : Grammar) (query : Query) : Nat → Outline → List Word → Prop
  | place, .word _ w, words =>
      words = [w] ∧ (w.isPattern = true ∨ query.accepts w.text place = true)
  | _, .deferred mark part, words => Yields grammar (.deferred mark part) words
  | place, .sequence _ _ parts, words => PartsSurvive grammar query place parts words
  | place, .choice _ branches, words => SomeSurvives grammar query place branches words
  | _, .blank _, _ | _, .scope _ _, _ => False

/-- The same for parts, each at the place where the one before it ends once it is pruned. -/
def PartsSurvive (grammar : Grammar) (query : Query) : Nat → List Outline → List Word → Prop
  | _, [], words => words = []
  | place, part :: parts, words =>
      ∃ first rest, words = first ++ rest ∧ Survives grammar query place part first ∧
        if (part.retain query place).value.count < 0 then YieldsAll grammar parts rest
        else
          PartsSurvive grammar query (place + (part.retain query place).value.count.toNat) parts
            rest

/-- The same for one of several branches. -/
def SomeSurvives (grammar : Grammar) (query : Query) : Nat → List Outline → List Word → Prop
  | _, [], _ => False
  | place, branch :: branches, words =>
      Survives grammar query place branch words ∨ SomeSurvives grammar query place branches words

end

theorem someSurvives_iff {place : Nat} {branches : List Outline} {words : List Word} :
    SomeSurvives grammar query place branches words ↔
      ∃ branch ∈ branches, branch.Survives grammar query place words := by
  induction branches with
  | nil => simp [SomeSurvives]
  | cons branch branches ih => simp [SomeSurvives, ih]

theorem partsSurvive_iff_of_le {parts : List Outline}
    (ih : ∀ part ∈ parts, ∀ place words, query.words.length ≤ place →
      (part.Survives grammar query place words ↔ part.Yields grammar words))
    {place : Nat} (h : query.words.length ≤ place) {words : List Word} :
    PartsSurvive grammar query place parts words ↔ YieldsAll grammar parts words := by
  induction parts generalizing place words with
  | nil => rfl
  | cons part parts ihparts =>
      have hrest : ∀ rest, (if (part.retain query place).value.count < 0
          then YieldsAll grammar parts rest
          else
            PartsSurvive grammar query (place + (part.retain query place).value.count.toNat) parts
            rest) ↔ YieldsAll grammar parts rest := by
        intro rest
        split
        · rfl
        · exact ihparts (fun other hother => ih other (List.mem_cons_of_mem _ hother)) (by omega)
      simp only [PartsSurvive, YieldsAll, ih part (List.mem_cons_self ..) place _ h, hrest]

/-- Behind the typed words everything survives. -/
theorem survives_iff_of_le {outline : Outline} {place : Nat} (h : query.words.length ≤ place)
    {words : List Word} :
    outline.Survives grammar query place words ↔ outline.Yields grammar words := by
  induction outline generalizing place words with
  | blank mark => rfl
  | scope mark type => rfl
  | deferred mark part => rfl
  | word mark w =>
      have haccepts : query.accepts w.text place = true := by
        rw [Query.accepts, List.getElem?_eq_none h]
      simp [Survives, Yields, haccepts]
  | sequence mark info parts ih =>
      exact partsSurvive_iff_of_le (fun part hpart place words hplace => ih part hpart hplace) h
  | choice mark branches ih =>
      rw [Survives, Yields, someSurvives_iff, yieldsAny_iff]
      refine exists_congr fun branch => and_congr_right ?_
      intro hbranch
      exact ih branch hbranch h

/-! ### What is kept -/

theorem retainParts_yields_iff {parts : List Outline}
    (ih : ∀ part ∈ parts, ∀ place words, (part.retain query place).stays = true ∧
      (part.retain query place).value.Yields grammar words ↔
        part.Survives grammar query place words) {place : Nat} {words : List Word} :
    (retainParts query place parts).stays = true ∧
        YieldsAll grammar (retainParts query place parts).value words ↔
      PartsSurvive grammar query place parts words := by
  induction parts generalizing place words with
  | nil => simp [retainParts, YieldsAll, PartsSurvive]
  | cons part parts ihparts =>
      have hhead := ih part (List.mem_cons_self ..) place
      have hrest := @ihparts fun other hother => ih other (List.mem_cons_of_mem _ hother)
      rw [retainParts, PartsSurvive]
      simp only [← hhead]
      cases hstays : (part.retain query place).stays with
      | false => simp
      | true =>
          by_cases hcount : (part.retain query place).value.count < 0
          · simp [hcount, YieldsAll]
          · simp only [hcount, YieldsAll, ← hrest, Bool.not_true, Bool.false_eq_true, if_false,
              true_and]
            constructor
            · rintro ⟨hstays', first, rest, rfl, hfirst, hyields⟩
              exact ⟨first, rest, rfl, hfirst, hstays', hyields⟩
            · rintro ⟨first, rest, rfl, hfirst, hstays', hyields⟩
              exact ⟨hstays', first, rest, rfl, hfirst, hyields⟩

/-- Pruning keeps the word lists that survive, and no others. -/
theorem retain_yields_iff {outline : Outline} {place : Nat} {words : List Word} :
    (outline.retain query place).stays = true ∧
        (outline.retain query place).value.Yields grammar words ↔
      outline.Survives grammar query place words := by
  induction outline generalizing place words with
  | blank mark => simp [retain, Yields, Survives]
  | scope mark type => simp [retain, Yields, Survives]
  | deferred mark part => simp [retain, Survives]
  | word mark w => simp [retain, Yields, Survives, and_comm]
  | sequence mark info parts ih =>
      rw [retain]
      split
      · next hplace => simp [survives_iff_of_le hplace]
      · exact retainParts_yields_iff fun part hpart place words => ih part hpart
  | choice mark branches ih =>
      rw [retain]
      split
      · next hplace => simp [survives_iff_of_le hplace]
      · rw [Survives, someSurvives_iff]
        simp only [Yields, yieldsAny_iff]
        constructor
        · rintro ⟨-, kept, hkept, hyields⟩
          obtain ⟨branch, hbranch, hstays, rfl⟩ := mem_retainBranches.1 hkept
          exact ⟨branch, hbranch, (ih branch hbranch).1 ⟨hstays, hyields⟩⟩
        · rintro ⟨branch, hbranch, hsurvives⟩
          obtain ⟨hstays, hyields⟩ := (ih branch hbranch).2 hsurvives
          have hkept := mem_retainBranches.2 ⟨branch, hbranch, hstays, rfl⟩
          refine ⟨?_, _, hkept, hyields⟩
          simpa using List.ne_nil_of_mem hkept

theorem prune_yields_iff {outline : Outline} {place : Nat} {words : List Word} :
    (∃ pruned, outline.prune query place = some pruned ∧ pruned.Yields grammar words) ↔
      outline.Survives grammar query place words := by
  rw [← retain_yields_iff, prune]
  constructor
  · rintro ⟨pruned, hpruned, hyields⟩
    split at hpruned
    · next hstays =>
        cases hpruned
        exact ⟨hstays, hyields⟩
    · cases hpruned
  · rintro ⟨hstays, hyields⟩
    exact ⟨_, if_pos hstays, hyields⟩

/-! ### Lengths and counts -/

/-- A word, or a sequence or a choice with at least one part or branch. -/
def IsSolid : Outline → Prop
  | .word _ _ => True
  | .sequence _ _ parts => parts ≠ []
  | .choice _ branches => branches ≠ []
  | .blank _ | .deferred _ _ | .scope _ _ => False

/-- Each part before the last of a sequence has word lists of one length only. -/
def Steady (grammar : Grammar) : Outline → Prop
  | .sequence _ _ parts =>
      ∀ part ∈ parts.dropLast, ∃ n, ∀ words, part.Yields grammar words → words.length = n
  | _ => True

/-- The greatest of known counts is the count of some branch. -/
theorem exists_count_eq_maxCounts {branches : List Outline} (hne : branches ≠ [])
    (h : ∀ branch ∈ branches, 0 ≤ branch.count) :
    ∃ branch ∈ branches, branch.count = maxCounts branches := by
  have hbound : ∀ branch ∈ branches, unknownCount ≤ branch.count := by
    intro branch hbranch
    exact le_trans (by decide) (h branch hbranch)
  rcases maxCounts_cases hbound with ⟨-, branch, hbranch, hunknown⟩ | ⟨hall, -, hzero | hmax⟩
  · have hcount := h branch hbranch
    rw [hunknown] at hcount
    exact absurd hcount (by decide)
  · obtain ⟨branch, hbranch⟩ := List.exists_mem_of_ne_nil branches hne
    have hcount := hall branch hbranch
    exact ⟨branch, hbranch, by omega⟩
  · exact hmax

theorem count_le_maxCounts {branches : List Outline} (h : 0 ≤ maxCounts branches) {branch : Outline}
    (hbranch : branch ∈ branches) : branch.count ≤ maxCounts branches := by
  have hbound : ∀ branch ∈ branches, unknownCount ≤ branch.count := by
    intro branch hbranch
    exact le_trans (by decide) (count_nonneg_of_maxCounts h branch hbranch)
  rcases maxCounts_cases hbound with ⟨hunknown, -⟩ | ⟨hall, -⟩
  · rw [hunknown] at h
    exact absurd h (by decide)
  · exact (hall branch hbranch).2

/-- No word list is longer than the count, as long as marks bound the counts and the count is
known. -/
theorem length_le_count {outline : Outline} (h : outline.Everywhere CountBounds)
    (hcount : 0 ≤ outline.count) {words : List Word} (hwords : outline.Yields grammar words) :
    (words.length : Int) ≤ outline.count := by
  obtain ⟨hnonneg, hle⟩ := h.self.recount_le hcount
  refine le_trans ?_ hle
  clear hcount hle
  induction outline generalizing words with
  | blank mark => exact hwords.elim
  | scope mark type => exact hwords.elim
  | deferred mark part => simp [recount, unknownCount] at hnonneg
  | word mark w =>
      rw [show words = [w] from hwords]
      exact le_rfl
  | sequence mark info parts ih =>
      have hcounts := count_nonneg_of_sumCounts hnonneg
      have hparts := allEverywhere_iff.1 h.2
      clear h hnonneg
      rw [Yields] at hwords
      rw [recount]
      induction parts generalizing words with
      | nil =>
          rw [show words = [] from hwords]
          exact le_rfl
      | cons part parts ihparts =>
          obtain ⟨first, rest, rfl, hfirst, hrest⟩ := hwords
          have hpart := hcounts part (List.mem_cons_self ..)
          have htail := fun other hother => hcounts other (List.mem_cons_of_mem part hother)
          have hbounds := hparts part (List.mem_cons_self ..)
          obtain ⟨hnonneg, hle⟩ := hbounds.self.recount_le hpart
          have hlength := ih part (List.mem_cons_self ..) hbounds hfirst hnonneg
          have hlengths := ihparts (fun other hother => ih other (List.mem_cons_of_mem _ hother))
            hrest
            htail fun other hother => hparts other (List.mem_cons_of_mem _ hother)
          rw [sumCounts_cons hpart (sumCounts_nonneg htail), List.length_append]
          omega
  | choice mark branches ih =>
      obtain ⟨branch, hbranch, hyields⟩ := yieldsAny_iff.1 hwords
      have hbounds := allEverywhere_iff.1 h.2 branch hbranch
      obtain ⟨hknown, hle⟩ := hbounds.self.recount_le
        (count_nonneg_of_maxCounts hnonneg branch hbranch)
      calc (words.length : Int)
          ≤ branch.recount := ih branch hbranch hbounds hyields hknown
        _ ≤ branch.count := hle
        _ ≤ maxCounts branches := count_le_maxCounts hnonneg hbranch

/-- Some word list of a solid outline with right counts is as long as the count says. -/
theorem exists_length_eq_count (grammar : Grammar) {outline : Outline}
    (hsolid : outline.Everywhere IsSolid) (hcounts : outline.Everywhere CountHolds) :
    ∃ words, outline.Yields grammar words ∧ (words.length : Int) = outline.count := by
  have hrecount : ∀ node : Outline, node.IsSolid → node.CountHolds → node.count = node.recount := by
    intro node hnode hholds
    cases hmark : node.mark.complete with
    | true => rw [count_of_complete hmark, hholds hmark]
    | false =>
        cases node with
        | word | sequence | choice =>
            rw [mark] at hmark
            simp [count, recount, hmark]
        | blank | deferred | scope => exact hnode.elim
  rw [hrecount outline hsolid.self hcounts.self]
  induction outline with
  | blank mark => exact hsolid.elim
  | scope mark type => exact hsolid.elim
  | deferred mark part => exact hsolid.elim
  | word mark w => exact ⟨[w], rfl, rfl⟩
  | sequence mark info parts ih =>
      have hparts := allEverywhere_iff.1 hsolid.2
      have hholds := allEverywhere_iff.1 hcounts.2
      clear hsolid hcounts
      rw [recount]
      induction parts with
      | nil => exact ⟨[], rfl, rfl⟩
      | cons part parts ihparts =>
          have hpart := hparts part (List.mem_cons_self ..)
          have hheld := hholds part (List.mem_cons_self ..)
          obtain ⟨first, hfirst, hlength⟩ := ih part (List.mem_cons_self ..) hpart hheld
          obtain ⟨rest, hrest, hlengths⟩ := ihparts
            (fun other hother => ih other (List.mem_cons_of_mem _ hother))
            (fun other hother => hparts other (List.mem_cons_of_mem _ hother))
            (fun other hother => hholds other (List.mem_cons_of_mem _ hother))
          rw [← hrecount part hpart.self hheld.self] at hlength
          refine ⟨first ++ rest, ⟨first, rest, rfl, hfirst, hrest⟩, ?_⟩
          rw [sumCounts_cons (by omega) (by omega), List.length_append]
          omega
  | choice mark branches ih =>
      have hbranches := allEverywhere_iff.1 hsolid.2
      have hholds := allEverywhere_iff.1 hcounts.2
      have hlength : ∀ branch ∈ branches, ∃ words, branch.Yields grammar words ∧
          (words.length : Int) = branch.count := by
        intro branch hbranch
        rw [hrecount branch (hbranches branch hbranch).self (hholds branch hbranch).self]
        exact ih branch hbranch (hbranches branch hbranch) (hholds branch hbranch)
      have hnonneg : ∀ branch ∈ branches, 0 ≤ branch.count := by
        intro branch hbranch
        obtain ⟨words, -, hwords⟩ := hlength branch hbranch
        omega
      obtain ⟨branch, hbranch, hmax⟩ := exists_count_eq_maxCounts hsolid.1 hnonneg
      obtain ⟨words, hwords, hcount⟩ := hlength branch hbranch
      exact ⟨words, yieldsAny_iff.2 ⟨branch, hbranch, hwords⟩, hcount.trans hmax⟩

theorem countBounds_self {outline : Outline} (hsolid : outline.Everywhere IsSolid)
    (hcounts : outline.Everywhere CountHolds) : outline.CountBounds := by
  intro hmark
  obtain ⟨words, -, hlength⟩ := exists_length_eq_count {} hsolid hcounts
  have hheld := hcounts.self hmark
  rw [count_of_complete hmark] at hlength
  exact ⟨by omega, by omega⟩

/-- Right counts of a solid outline are bounds, everywhere in it. -/
theorem countBounds_of_countHolds {outline : Outline} (hsolid : outline.Everywhere IsSolid)
    (hcounts : outline.Everywhere CountHolds) : outline.Everywhere CountBounds := by
  induction outline with
  | blank | word | deferred | scope => exact countBounds_self hsolid hcounts
  | sequence mark info parts ih =>
      refine ⟨countBounds_self hsolid hcounts, allEverywhere_iff.2 ?_⟩
      intro part hpart
      exact ih part hpart (allEverywhere_iff.1 hsolid.2 part hpart)
        (allEverywhere_iff.1 hcounts.2 part hpart)
  | choice mark branches ih =>
      refine ⟨countBounds_self hsolid hcounts, allEverywhere_iff.2 ?_⟩
      intro branch hbranch
      exact ih branch hbranch (allEverywhere_iff.1 hsolid.2 branch hbranch)
        (allEverywhere_iff.1 hcounts.2 branch hbranch)

/-! ### Agreeing word lists -/

/-- Once it is pruned, a part of one length takes up as many words as it did before. -/
theorem count_retain_eq {part : Outline} (hsolid : part.Everywhere IsSolid)
    (hcounts : part.Everywhere CountHolds) {n : Nat}
    (hlength : ∀ words, part.Yields grammar words → words.length = n) {place : Nat}
    {words : List Word} (hwords : part.Yields grammar words)
    (hsurvives : part.Survives grammar query place words) :
    (part.retain query place).value.count = n := by
  obtain ⟨other, hother, hcount⟩ := exists_length_eq_count grammar hsolid hcounts
  rw [hlength other hother] at hcount
  obtain ⟨hnonneg, hle⟩ := count_retain query (by omega : 0 ≤ part.count) place
  have hbounds : (part.retain query place).value.Everywhere CountBounds :=
    retain_countBounds (countBounds_of_countHolds hsolid hcounts) place
  -- pruning makes the part no longer, and a word list that is left makes it no shorter
  obtain ⟨-, hyields⟩ := retain_yields_iff.2 hsurvives
  have hge := length_le_count hbounds hnonneg hyields
  rw [hlength words hwords] at hge
  omega

theorem partsSurvive_of_agrees {parts : List Outline}
    (ih : ∀ part ∈ parts, ∀ place words, part.Yields grammar words → query.Agrees place words →
      part.Survives grammar query place words)
    (hsolid : ∀ part ∈ parts, part.Everywhere IsSolid)
    (hcounts : ∀ part ∈ parts, part.Everywhere CountHolds)
    (hsteady : ∀ part ∈ parts.dropLast, ∃ n, ∀ words, part.Yields grammar words → words.length = n)
    {place : Nat} {words : List Word} (hwords : YieldsAll grammar parts words)
    (hagrees : query.Agrees place words) : PartsSurvive grammar query place parts words := by
  induction parts generalizing place words with
  | nil => exact hwords
  | cons part parts ihparts =>
      obtain ⟨first, rest, rfl, hfirst, hrest⟩ := hwords
      obtain ⟨hagreesFirst, hagreesRest⟩ := Query.agrees_append.1 hagrees
      obtain ⟨honly, hsteadyRest⟩ := forall_mem_dropLast_cons.1 hsteady
      have hsurvives := ih part (List.mem_cons_self ..) place first hfirst hagreesFirst
      refine ⟨first, rest, rfl, hsurvives, ?_⟩
      split
      · exact hrest
      · by_cases hmore : parts = []
        · subst hmore
          exact hrest
        · obtain ⟨n, hlength⟩ := honly hmore
          rw [count_retain_eq (hsolid part (List.mem_cons_self ..))
            (hcounts part (List.mem_cons_self ..)) hlength hfirst hsurvives, Int.toNat_natCast,
            ← hlength first hfirst]
          exact ihparts (fun other hother => ih other (List.mem_cons_of_mem _ hother))
            (fun other hother => hsolid other (List.mem_cons_of_mem _ hother))
            (fun other hother => hcounts other (List.mem_cons_of_mem _ hother)) hsteadyRest hrest
            hagreesRest

/-- In a steady outline every word list that agrees with the typed words survives. -/
theorem survives_of_agrees {outline : Outline} (hsolid : outline.Everywhere IsSolid)
    (hcounts : outline.Everywhere CountHolds) (hsteady : outline.Everywhere (Steady grammar))
    {place : Nat} {words : List Word} (hwords : outline.Yields grammar words)
    (hagrees : query.Agrees place words) : outline.Survives grammar query place words := by
  induction outline generalizing place words with
  | blank mark => exact hwords
  | scope mark type => exact hwords
  | deferred mark part => exact hwords
  | word mark w =>
      have hw : words = [w] := hwords
      subst hw
      exact ⟨rfl, hagrees.1⟩
  | sequence mark info parts ih =>
      have hparts := allEverywhere_iff.1 hsolid.2
      have hholds := allEverywhere_iff.1 hcounts.2
      have hall := allEverywhere_iff.1 hsteady.2
      refine partsSurvive_of_agrees ?_ hparts hholds hsteady.1 hwords hagrees
      intro part hpart place words
      exact ih part hpart (hparts part hpart) (hholds part hpart) (hall part hpart)
  | choice mark branches ih =>
      obtain ⟨branch, hbranch, hyields⟩ := yieldsAny_iff.1 hwords
      refine someSurvives_iff.2 ⟨branch, hbranch, ?_⟩
      exact ih branch hbranch (allEverywhere_iff.1 hsolid.2 branch hbranch)
        (allEverywhere_iff.1 hcounts.2 branch hbranch)
        (allEverywhere_iff.1 hsteady.2 branch hbranch)
        hyields hagrees

/-- Pruning keeps exactly the word lists that agree with the typed words at the places of the
walk.  If all parts before the last of a sequence have one length each, then these are all word
lists that agree with the typed words. -/
theorem prune_yields (grammar : Grammar) (query : Query) (place : Nat) (outline : Outline) :
    (∀ words, (∃ pruned, outline.prune query place = some pruned ∧ pruned.Yields grammar words) ↔
      outline.Survives grammar query place words) ∧
    (outline.Everywhere IsSolid → outline.Everywhere CountHolds →
      outline.Everywhere (Steady grammar) → ∀ words, outline.Yields grammar words →
        query.Agrees place words →
          ∃ pruned, outline.prune query place = some pruned ∧ pruned.Yields grammar words) := by
  constructor
  · intro words
    exact prune_yields_iff
  · intro hsolid hcounts hsteady words hwords hagrees
    exact prune_yields_iff.2 (survives_of_agrees hsolid hcounts hsteady hwords hagrees)

/-! ### A command that is lost -/

/-- The words `direct via` and the beginning of a third word. -/
def viaQuery : Query := ⟨["direct", "via", "n"], 2, .hint⟩

/-- One of several branches, and then the words `via north`. -/
def beforeVia (branches : List Outline) : Outline :=
  .sequence {} {} [.choice {} branches, .ofWord (.literal "via"), .ofWord (.literal "north")]

/-- With single words only before `via`, the command `direct via north` is kept. -/
theorem prune_yields_beforeVia :
    (beforeVia [.ofWord (.literal "direct"), .ofWord (.pattern "<real>")]).Everywhere (Steady {}) ∧
      ∃ pruned,
        (beforeVia [.ofWord (.literal "direct"), .ofWord (.pattern "<real>")]).prune viaQuery 0 =
        some pruned ∧ pruned.Yields {} [.literal "direct", .literal "via", .literal "north"] := by
  have hsteady : (beforeVia [.ofWord (.literal "direct"), .ofWord (.pattern "<real>")]).Everywhere
      (Steady {}) := by
    refine ⟨?_, ⟨trivial, trivial, trivial, trivial⟩, trivial, trivial, trivial⟩
    intro part hpart
    refine ⟨1, ?_⟩
    rcases List.mem_pair.1 hpart with rfl | rfl
    · rintro words (rfl | rfl | hnone)
      · rfl
      · rfl
      · exact hnone.elim
    · rintro words rfl
      rfl
  refine ⟨hsteady, (prune_yields {} viaQuery 0 _).2 ?_ ?_ hsteady _ ?_ ?_⟩
  · exact
      ⟨by simp [IsSolid], ⟨by simp [IsSolid], trivial, trivial, trivial⟩, trivial, trivial, trivial⟩
  · have hopen := closing_countHolds.incomplete
    exact ⟨hopen _ rfl, ⟨hopen _ rfl, fun _ => rfl, fun _ => rfl, trivial⟩, fun _ => rfl,
      fun _ => rfl,
      trivial⟩
  · exact
      ⟨[.literal "direct"], _, rfl, .inl rfl, [.literal "via"], _, rfl, rfl, [.literal "north"], [],
      rfl, rfl, rfl⟩
  · exact ⟨.inr rfl, .inr rfl, .inr rfl, trivial⟩

/-- With a pair of numbers as the other branch it is lost: the pair is longer, so `via` is looked at
one place too far on, where `n` was typed. -/
theorem not_prune_safe : ¬ ∀ (query : Query) (place : Nat) (outline : Outline) (words : List Word),
    outline.Everywhere IsSolid → outline.Everywhere CountHolds → outline.Yields {} words →
      query.Agrees place words →
        ∃ pruned, outline.prune query place = some pruned ∧ pruned.Yields {} words := by
  intro hsafe
  have hopen := closing_countHolds.incomplete
  obtain ⟨pruned, hpruned, -⟩ := hsafe viaQuery 0
    (beforeVia [.ofWord (.literal "direct"),
      .sequence {} {} [.ofWord (.pattern "<real>"), .ofWord (.pattern "<real>")]])
    [.literal "direct", .literal "via", .literal "north"]
    ⟨by simp [IsSolid], ⟨by simp [IsSolid], trivial, ⟨by simp [IsSolid], trivial, trivial, trivial⟩,
      trivial⟩, trivial, trivial, trivial⟩
    ⟨hopen _ rfl, ⟨hopen _ rfl, fun _ => rfl, ⟨hopen _ rfl, fun _ => rfl, fun _ => rfl, trivial⟩,
      trivial⟩, fun _ => rfl, fun _ => rfl, trivial⟩
    ⟨[.literal "direct"], _, rfl, .inl rfl, [.literal "via"], _, rfl, rfl, [.literal "north"], [],
      rfl,
      rfl, rfl⟩
    ⟨.inr rfl, .inr rfl, .inr rfl, trivial⟩
  have hnone : (beforeVia [.ofWord (.literal "direct"),
      .sequence {} {} [.ofWord (.pattern "<real>"), .ofWord (.pattern "<real>")]]).prune
        viaQuery 0 =
        none := by
    rfl
  rw [hnone] at hpruned
  cases hpruned

end Outline

end Typeahead
