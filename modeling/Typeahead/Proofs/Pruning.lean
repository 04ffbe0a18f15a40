/-
Pruning an outline of a position-determined grammar.

Pruning is a step in the sense of `Typeahead.Outline.Follows`.  It keeps every word list that agrees
with the typed words, and where the outline is expanded it keeps no other: because the parts before
the last of a sequence are uniform, pruning looks at every word at its true place.

Main definitions:

* `Typeahead.Query.Agrees` — a word list may stand at a place of the query;
* `Typeahead.Outline.Prunes` — what pruning a node comes to.

Main results:

* `Typeahead.Query.agrees_append` — agreement of a concatenation;
* `Typeahead.Outline.retain_prunes` — pruning a regular outline comes to this.
-/

import Typeahead.Outline.Prune
import Typeahead.Proofs.Steps

set_option relaxedAutoImplicit false
set_option autoImplicit false

namespace Typeahead

/-! ### Agreement with the typed words -/

namespace Query

/-- The words may stand at the places from `place` on: each is a pattern, or is accepted by the
query where it stands. -/
def Agrees (query : Query) : Nat → List Word → Prop
  | _, [] => True
  | place, word :: words =>
      (word.isPattern = true ∨ query.accepts word.text place = true) ∧
        Agrees query (place + 1) words

variable {query : Query}

theorem agrees_append {place : Nat} {first rest : List Word} :
    query.Agrees place (first ++ rest) ↔
      query.Agrees place first ∧ query.Agrees (place + first.length) rest := by
  induction first generalizing place with
  | nil => simp [Agrees]
  | cons word first ih =>
      have hplace : place + 1 + first.length = place + (first.length + 1) := by omega
      rw [List.cons_append, Agrees, Agrees, ih, List.length_cons, hplace, and_assoc]

theorem agrees_take {place : Nat} {words : List Word} (h : query.Agrees place words) (n : Nat) :
    query.Agrees place (words.take n) := by
  rw [← List.take_append_drop n words] at h
  exact (agrees_append.1 h).1

theorem agrees_iff {place : Nat} {words : List Word} :
    query.Agrees place words ↔ ∀ i word, words[i]? = some word →
      word.isPattern = true ∨ query.accepts word.text (place + i) = true := by
  induction words generalizing place with
  | nil => simp [Agrees]
  | cons word words ih =>
      rw [Agrees, ih]
      constructor
      · rintro ⟨hword, hwords⟩ i other hother
        cases i with
        | zero =>
            simp only [List.getElem?_cons_zero, Option.some.injEq] at hother
            exact hother ▸ hword
        | succ i =>
            rw [List.getElem?_cons_succ] at hother
            have := hwords i other hother
            rwa [Nat.add_right_comm] at this
      · intro h
        refine ⟨h 0 word rfl, ?_⟩
        intro i other hother
        have := h (i + 1) other (by rwa [List.getElem?_cons_succ])
        rwa [Nat.add_right_comm]

/-- Nothing is asked beyond the typed words. -/
theorem agrees_of_length_le {place : Nat} (h : query.words.length ≤ place) (words : List Word) :
    query.Agrees place words := by
  refine agrees_iff.2 fun i word _ => .inr ?_
  rw [accepts, List.getElem?_eq_none (by omega)]

end Query

/-! ### What pruning comes to -/

namespace Outline

variable {grammar : Grammar} {root : RuleId} {cost : RuleId → Nat} {query : Query}

/-- What pruning a node that starts at `start` comes to. -/
structure Prunes (grammar : Grammar) (root : RuleId) (cost : RuleId → Nat) (query : Query)
    (start : Nat) (before : Outline) (kept : Retained Outline) : Prop where
  follows : kept.stays = true → Follows grammar root cost before kept.value
  keeps : ∀ words, before.Yields grammar words → query.Agrees start words →
    kept.stays = true ∧ kept.value.Yields grammar words
  agrees : kept.stays = true → ∀ limit, before.ExpandedTo grammar limit start →
    ∀ words, kept.value.Yields grammar words → query.Agrees start (words.take (limit - start))
  expanded : kept.stays = true → ∀ limit, before.ExpandedTo grammar limit start →
    kept.value.ExpandedTo grammar limit start

/-- What pruning the parts of a sequence comes to. -/
structure PartsPrune (grammar : Grammar) (root : RuleId) (cost : RuleId → Nat) (query : Query)
    (start : Nat) (before : List Outline) (kept : Retained (List Outline)) : Prop where
  follows : kept.stays = true → List.Forall₂ (Follows grammar root cost) before kept.value
  keeps : ∀ words, YieldsAll grammar before words → query.Agrees start words →
    kept.stays = true ∧ YieldsAll grammar kept.value words
  agrees : kept.stays = true → ∀ limit, AllExpandedTo grammar limit start before →
    ∀ words, YieldsAll grammar kept.value words → query.Agrees start (words.take (limit - start))
  expanded : kept.stays = true → ∀ limit, AllExpandedTo grammar limit start before →
    AllExpandedTo grammar limit start kept.value

/-- A node that pruning leaves alone because it starts beyond the typed words. -/
theorem prunes_same {outline : Outline} {start : Nat} (hreg : outline.Regular grammar root)
    (h : query.words.length ≤ start) :
    Prunes grammar root cost query start outline ⟨outline, true⟩ where
  follows _ := .refl hreg
  keeps _ hwords _ := ⟨rfl, hwords⟩
  agrees _ _ _ _ _ := Query.agrees_of_length_le h _
  expanded _ _ hexp := hexp

/-- Agreement of the first words of a concatenation, up to a limit. -/
theorem agrees_take_append {start limit : Nat} {first rest : List Word}
    (hfirst : query.Agrees start (first.take (limit - start)))
    (hrest : start + first.length < limit →
      query.Agrees (start + first.length) (rest.take (limit - (start + first.length)))) :
    query.Agrees start ((first ++ rest).take (limit - start)) := by
  rw [List.take_append, Query.agrees_append]
  refine ⟨hfirst, ?_⟩
  by_cases hlt : start + first.length < limit
  · rw [List.take_of_length_le (by omega), show limit - start - first.length =
      limit - (start + first.length) by omega]
    exact hrest hlt
  · rw [show limit - start - first.length = 0 by omega, List.take_zero]
    trivial

/-- The place where a uniform part ends, as far as it is counted after pruning. -/
theorem Follows.count_toNat {before after : Outline} (h : Follows grammar root cost before after)
    (huniform : before.Uniform grammar) (hcount : 0 ≤ after.count) :
    after.count.toNat = before.extent grammar := by
  rw [(h.uniform huniform).count_eq_of_nonneg h.regular hcount, h.extent huniform,
    Int.toNat_natCast]

/-- A uniform part that ends before a place to which it is expanded is counted. -/
theorem Follows.count_nonneg {before after : Outline} {limit start : Nat}
    (h : Follows grammar root cost before after) (hg : grammar.PositionDetermined root)
    (hreg : before.Regular grammar root) (huniform : before.Uniform grammar)
    (hexp : before.ExpandedTo grammar limit start)
    (hlimit : start + before.extent grammar ≤ limit) : 0 ≤ after.count := by
  have hbefore := huniform.isExpanded_of_expandedTo hg hreg hexp hlimit
  rw [(h.uniform huniform).count_eq h.regular (h.expanded hbefore)]
  omega

/-- The last part of a sequence. -/
theorem Prunes.last {part : Outline} {kept : Retained Outline} {start : Nat}
    (h : Prunes grammar root cost query start part kept) :
    PartsPrune grammar root cost query start [part] ⟨[kept.value], kept.stays⟩ where
  follows hstays := .cons (h.follows hstays) .nil
  keeps := by
    rintro words ⟨first, rest, rfl, hfirst, hrest⟩ hagrees
    obtain ⟨hstays, hkept⟩ := h.keeps first hfirst (Query.agrees_append.1 hagrees).1
    exact ⟨hstays, first, rest, rfl, hkept, hrest⟩
  agrees := by
    rintro hstays limit ⟨hexp, -⟩ words ⟨first, rest, rfl, hfirst, hrest⟩
    refine agrees_take_append (h.agrees hstays limit hexp first hfirst) ?_
    intro _
    simp [show rest = [] from hrest, Query.Agrees]
  expanded hstays limit hexp := ⟨h.expanded hstays limit hexp.1, trivial⟩

/-- A part that is ruled out. -/
theorem Prunes.ruledOut {part : Outline} {parts : List Outline} {kept : Retained Outline}
    {start : Nat} (h : Prunes grammar root cost query start part kept)
    (hstays : kept.stays = false) :
    PartsPrune grammar root cost query start (part :: parts) ⟨kept.value :: parts, false⟩ where
  follows := by simp
  keeps := by
    rintro words ⟨first, rest, rfl, hfirst, hrest⟩ hagrees
    have := (h.keeps first hfirst (Query.agrees_append.1 hagrees).1).1
    simp [hstays] at this
  agrees := by simp
  expanded := by simp

/-- A uniform part that stays but is not counted: pruning ends here.  Nothing is lost below a limit
that the outline is expanded to, because the part then reaches beyond the limit. -/
theorem Prunes.uncounted {part : Outline} {parts : List Outline} {kept : Retained Outline}
    {start : Nat} (h : Prunes grammar root cost query start part kept)
    (hg : grammar.PositionDetermined root) (hreg : part.Regular grammar root)
    (huniform : part.Uniform grammar) (hparts : RegularParts grammar root parts)
    (hstays : kept.stays = true) (hcount : kept.value.count < 0) :
    PartsPrune grammar root cost query start (part :: parts) ⟨kept.value :: parts, true⟩ where
  follows _ := by
    refine .cons (h.follows hstays) (List.forall₂_same.2 ?_)
    intro other hother
    exact .refl (hparts.regular other hother)
  keeps := by
    rintro words ⟨first, rest, rfl, hfirst, hrest⟩ hagrees
    have hkept := (h.keeps first hfirst (Query.agrees_append.1 hagrees).1).2
    exact ⟨rfl, first, rest, rfl, hkept, hrest⟩
  agrees := by
    rintro - limit ⟨hexp, -⟩ words ⟨first, rest, rfl, hfirst, hrest⟩
    have hfollows := h.follows hstays
    refine agrees_take_append (h.agrees hstays limit hexp first hfirst) ?_
    intro hlt
    have hlength := huniform.length_eq (hfollows.yields first hfirst)
    have hknown := hfollows.count_nonneg hg hreg huniform hexp (by omega)
    omega
  expanded _ limit hexp := by
    refine ⟨h.expanded hstays limit hexp.1, ?_⟩
    rw [(h.follows hstays).extent huniform]
    exact hexp.2

/-- A uniform part that stays and is counted: pruning goes on where it ends. -/
theorem Prunes.counted {part : Outline} {parts : List Outline} {kept : Retained Outline}
    {keptParts : Retained (List Outline)} {start : Nat}
    (h : Prunes grammar root cost query start part kept) (huniform : part.Uniform grammar)
    (hstays : kept.stays = true)
    (hparts : PartsPrune grammar root cost query (start + part.extent grammar) parts keptParts) :
    PartsPrune grammar root cost query start (part :: parts)
      ⟨kept.value :: keptParts.value, keptParts.stays⟩ where
  follows hrest := .cons (h.follows hstays) (hparts.follows hrest)
  keeps := by
    rintro words ⟨first, rest, rfl, hfirst, hrest⟩ hagrees
    obtain ⟨hagreesFirst, hagreesRest⟩ := Query.agrees_append.1 hagrees
    rw [huniform.length_eq hfirst] at hagreesRest
    obtain ⟨hstaysRest, hkeptRest⟩ := hparts.keeps rest hrest hagreesRest
    exact ⟨hstaysRest, first, rest, rfl, (h.keeps first hfirst hagreesFirst).2, hkeptRest⟩
  agrees := by
    rintro hstaysRest limit ⟨hexp, hexpRest⟩ words ⟨first, rest, rfl, hfirst, hrest⟩
    refine agrees_take_append (h.agrees hstays limit hexp first hfirst) ?_
    intro _
    rw [huniform.length_eq ((h.follows hstays).yields first hfirst)]
    exact hparts.agrees hstaysRest limit hexpRest rest hrest
  expanded hstaysRest limit hexp := by
    refine ⟨h.expanded hstays limit hexp.1, ?_⟩
    rw [(h.follows hstays).extent huniform]
    exact hparts.expanded hstaysRest limit hexp.2

/-- Pruning the parts of a sequence, given what it does to each of them. -/
theorem retainParts_prune (hg : grammar.PositionDetermined root) {parts : List Outline}
    (ih : ∀ part ∈ parts, part.Regular grammar root → ∀ start,
      Prunes grammar root cost query start part (part.retain query start))
    (hreg : RegularParts grammar root parts) (start : Nat) :
    PartsPrune grammar root cost query start parts (retainParts query start parts) := by
  induction parts generalizing start with
  | nil =>
      refine ⟨fun _ => .nil, fun words hwords _ => ⟨rfl, hwords⟩, ?_, fun _ _ h => h⟩
      intro _ limit _ words hwords
      simp only [retainParts, YieldsAll] at hwords
      simp [hwords, Query.Agrees]
  | cons part parts ihparts =>
      obtain ⟨hpart, huniform, hparts⟩ := hreg
      have hprunes := ih part (List.mem_cons_self ..) hpart start
      have hrest := ihparts (fun other hother => ih other (List.mem_cons_of_mem _ hother)) hparts
      rw [retainParts]
      simp only [Bool.not_eq_true']
      by_cases hnil : parts = []
      · -- the last part need not be uniform, but nothing comes after it
        subst hnil
        have hlast := hprunes.last
        split
        · next hstays => rwa [hstays] at hlast
        · next hstays =>
            rw [Bool.not_eq_false] at hstays
            rw [hstays] at hlast
            split
            · exact hlast
            · exact hlast
      · split
        · next hstays => exact hprunes.ruledOut hstays
        · next hstays =>
            rw [Bool.not_eq_false] at hstays
            split
            · next hcount =>
                exact hprunes.uncounted hg hpart (huniform hnil) hparts hstays hcount
            · next hcount =>
                rw [(hprunes.follows hstays).count_toNat (huniform hnil) (not_lt.1 hcount)]
                exact hprunes.counted (huniform hnil) hstays (hrest _)

/-- The branches that pruning keeps. -/
theorem mem_retainBranches {start : Nat} {branches : List Outline} {branch' : Outline} :
    branch' ∈ retainBranches query start branches ↔
      ∃ branch ∈ branches, (branch.retain query start).stays = true ∧
        (branch.retain query start).value = branch' := by
  induction branches with
  | nil => simp [retainBranches]
  | cons branch branches ih =>
      rw [retainBranches]
      split
      · next hstays =>
          simp only [List.mem_cons, ih, exists_eq_or_imp, hstays, true_and, eq_comm (a := branch')]
      · next hstays => simp [ih, hstays]

theorem retainBranches_follows {start : Nat} {branches : List Outline}
    (h : ∀ branch ∈ branches,
      Prunes grammar root cost query start branch (branch.retain query start)) :
    FollowsSome grammar root cost branches (retainBranches query start branches) := by
  induction branches with
  | nil => exact .nil
  | cons branch branches ih =>
      have hrest := ih fun other hother => h other (List.mem_cons_of_mem _ hother)
      rw [retainBranches]
      split
      · next hstays => exact .cons ((h branch (List.mem_cons_self ..)).follows hstays) hrest
      · exact .cons_right hrest

/-- Pruning a regular outline. -/
theorem retain_prunes (cost : RuleId → Nat) (query : Query)
    (hg : grammar.PositionDetermined root) {outline : Outline}
    (hreg : outline.Regular grammar root) (start : Nat) :
    Prunes grammar root cost query start outline (outline.retain query start) := by
  induction outline generalizing start with
  | blank mark => exact hreg.elim
  | scope mark type => exact hreg.elim
  | word mark w =>
      rw [retain]
      refine ⟨fun _ => .refl hreg, ?_, ?_, fun _ _ _ => trivial⟩
      · rintro words rfl hagrees
        exact ⟨by simpa using hagrees.1, rfl⟩
      · rintro hstays limit - words rfl
        have hagrees : query.Agrees start [w] := ⟨by simpa using hstays, trivial⟩
        exact Query.agrees_take hagrees _
  | deferred mark part =>
      rw [retain]
      refine ⟨fun _ => .refl hreg, fun words hwords _ => ⟨rfl, hwords⟩, ?_, fun _ _ h => h⟩
      -- what is put off starts at or after the limit
      intro _ limit hexp words _
      rw [ExpandedTo] at hexp
      rw [Nat.sub_eq_zero_of_le hexp, List.take_zero]
      trivial
  | sequence mark info parts ih =>
      rw [retain]
      split
      · next hbeyond => exact prunes_same hreg hbeyond
      · have hparts := retainParts_prune hg ih hreg.2.2.2 start
        refine ⟨?_, hparts.keeps, hparts.agrees, hparts.expanded⟩
        intro hstays
        have hfollows := hparts.follows hstays
        refine Follows.sequence hreg hfollows ?_ fun huniform hmark => ?_
        · intro hmark
          exact Follows.allExpanded hfollows (hreg.2.2.1 hmark)
        · rw [huniform.1 hmark, (Follows.uniformAll hfollows huniform.2).2]
  | choice mark branches ih =>
      rw [retain]
      split
      · next hbeyond => exact prunes_same hreg hbeyond
      · have hbranches : ∀ branch ∈ branches, Prunes grammar root cost query start branch
            (branch.retain query start) := fun branch hmem =>
          ih branch hmem (regularBranches_iff.1 hreg.2.2 branch hmem) start
        have hsome := retainBranches_follows hbranches
        refine ⟨fun hstays => ?_, ?_, ?_, ?_⟩
        · have hne : retainBranches query start branches ≠ [] := by simpa using hstays
          refine Follows.choice hsome hne (fun hmark => ?_) fun huniform hmark => ?_
          · refine allExpanded_iff.2 fun branch' hmem => ?_
            obtain ⟨branch, hbranch, hfollows⟩ := hsome.exists_follows branch' hmem
            exact hfollows.expanded (allExpanded_iff.1 (hreg.2.1 hmark) branch hbranch)
          · rw [huniform.1 hmark, (hsome.uniformAny hne huniform.2).2]
        · intro words hwords hagrees
          obtain ⟨branch, hmem, hbranch⟩ := yieldsAny_iff.1 hwords
          obtain ⟨hstays, hkept⟩ := (hbranches branch hmem).keeps words hbranch hagrees
          have hmem' := mem_retainBranches.2 ⟨branch, hmem, hstays, rfl⟩
          exact ⟨by simpa using List.ne_nil_of_mem hmem', yieldsAny_iff.2 ⟨_, hmem', hkept⟩⟩
        · intro _ limit hexp words hwords
          obtain ⟨branch', hmem', hbranch'⟩ := yieldsAny_iff.1 hwords
          obtain ⟨branch, hmem, hstays, rfl⟩ := mem_retainBranches.1 hmem'
          exact (hbranches branch hmem).agrees hstays limit
            (anyExpandedTo_iff.1 hexp branch hmem) words hbranch'
        · intro _ limit hexp
          refine anyExpandedTo_iff.2 fun branch' hmem' => ?_
          obtain ⟨branch, hmem, hstays, rfl⟩ := mem_retainBranches.1 hmem'
          exact (hbranches branch hmem).expanded hstays limit
            (anyExpandedTo_iff.1 hexp branch hmem)

end Outline

end Typeahead
