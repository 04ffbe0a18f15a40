/-
Suggestions in flat languages.

Growing and pruning keep a flat outline flat and do not change what it shows.  After a pass that
unfolds nothing, all single words and loads before the place behind the cursor are there, so the
walk that reads the suggestions off counts down the places that the words really have, and it offers
what is shown.

Main definitions:

* `Typeahead.Language.GrowsFlat`, `Typeahead.Outline.PrunesFlat` — what a pass and pruning come to;
* `Typeahead.Outline.OffersShown` — the walk offers what is shown;
* `Typeahead.Language.start?` — the rule that a request starts from.

Main results:

* `Typeahead.Language.grow_flat` — growing a flat outline;
* `Typeahead.Outline.retain_flat` — pruning a flat outline;
* `Typeahead.Outline.offersShown_of_flat` — reading off a flat outline;
* `Typeahead.Language.mem_suggestions_of_flat` — the suggestions are the texts that are shown.
-/

import Typeahead.Proofs.Acyclic
import Typeahead.Proofs.FlatCommands

set_option relaxedAutoImplicit false
set_option autoImplicit false

namespace Typeahead

namespace Outline

variable {language : Language} {grammar : Grammar} {query : Query}
  {known : RuleId → Set (Option TypeId)} {scopes : Set (Option TypeId)} {limit place : Nat}
  {done done' : Prop}

/-! ### Single words -/

theorem OneWord.count_eq {node : Outline} (h : node.OneWord grammar)
    (hdeferred : node.isDeferred = false) : node.count = 1 := by
  induction node with
  | word mark w =>
      rw [count]
      split
      · next hmark => exact h hmark
      · rfl
  | choice mark branches ih =>
      obtain ⟨hcount, hne, hall⟩ := h
      rw [count]
      split
      · next hmark => exact hcount hmark
      · refine maxCounts_eq (n := 1) hne ?_
        intro branch hbranch
        obtain ⟨hbranchDeferred, hword⟩ := allOneWord_iff.1 hall branch hbranch
        exact ih branch hbranch hword hbranchDeferred
  | deferred => cases hdeferred
  | blank | sequence | scope => exact h.elim

theorem OneWord.scopeAt {node : Outline} (h : node.OneWord grammar) (scope : Option TypeId) :
    node.scopeAt scope = scope := by
  cases node with
  | word | deferred | choice => rfl
  | blank | sequence | scope => exact h.elim

theorem oneWord_closeChoice {mark : Mark} (hmark : mark.complete = false) {branches : List Outline}
    (hne : branches ≠ [])
    (h : ∀ branch ∈ branches, branch.isDeferred = false ∧ branch.OneWord grammar) :
    (closeChoice mark branches).OneWord grammar := by
  have hmax : maxCounts branches = 1 := by
    refine maxCounts_eq (n := 1) hne ?_
    intro branch hbranch
    exact (h branch hbranch).2.count_eq (h branch hbranch).1
  rw [closeChoice]
  split
  · exact ⟨fun _ => hmax, hne, allOneWord_iff.2 h⟩
  · refine ⟨?_, hne, allOneWord_iff.2 h⟩
    intro hcomplete
    rw [hmark] at hcomplete
    cases hcomplete

/-- Nothing has to be done behind the limit. -/
theorem PartsFlat.of_le {parts : List Outline}
    (h : PartsFlat language query known limit done scopes place parts) (hplace : limit ≤ place) :
    PartsFlat language query known limit done' scopes place parts := by
  induction parts generalizing scopes place with
  | nil => exact h
  | cons part parts ih =>
      rcases h with ⟨hpart, hlimit, hloads⟩ | ⟨hword, hlimit, -, hrest⟩ | ⟨hload, -, hrest⟩
      · refine .inl ⟨?_, hlimit, hloads⟩
        cases part with
        | deferred mark part =>
            obtain ⟨hmark, href, htag, -⟩ := hpart
            exact ⟨hmark, href, htag, fun _ => .inl hplace⟩
        | blank | word | sequence | choice | scope => cases hlimit hplace
      · exact .inr (.inl ⟨hword, hlimit, fun _ _ => hplace, ih hrest (by omega)⟩)
      · exact .inr (.inr ⟨hload, fun _ _ => hplace, ih hrest hplace⟩)

end Outline

namespace Language

open Outline

variable {language : Language} {query : Query} {known : RuleId → Set (Option TypeId)}
  {scopes : Set (Option TypeId)} {limit place : Nat} {scope : Option TypeId}

/-! ### Growing -/

/-- What a pass over a single word at a place comes to: it ends at the next place and is not put off
any more, and it shows and admits what it did before. -/
structure GrowsWord (language : Language) (query : Query) (place : Nat) (part : Outline)
    (growth : Growth) : Prop where
  index : growth.index = (place + 1 : Nat)
  oneWord : growth.node.OneWord language.grammar
  notDeferred : growth.node.isDeferred = false
  admits : ∀ place, growth.node.Admits language.grammar query place ↔
    part.Admits language.grammar query place
  displays : ∀ place text, growth.node.Displays language.grammar query place text ↔
    part.Displays language.grammar query place text

/-- A pass leaves alone a single word that is not put off and that is counted right. -/
theorem growsWord_same {part : Outline} (h : part.OneWord language.grammar)
    (hdeferred : part.isDeferred = false) {index : Int} (hindex : index = (place + 1 : Nat))
    (grew : Bool) : language.GrowsWord query place part ⟨part, index, grew⟩ where
  index := hindex
  oneWord := h
  notDeferred := hdeferred
  admits _ := Iff.rfl
  displays _ _ := Iff.rfl

theorem advance_one (place : Nat) : advance place 1 = (place + 1 : Nat) :=
  advance_of_nonneg (by omega) (by omega)

theorem endIndex_eq {mark : Mark} (count : Nat) (h : mark.wordCount = count) (place : Nat) :
    mark.endIndex place = (place + count : Nat) := by
  rw [Mark.endIndex, h, if_neg (by omega), advance_of_nonneg (by omega) (by omega)]
  omega

section Flat

variable (h : language.Flat known)
include h

theorem grow_oneWord {part : Outline} (hpart : part.OneWord language.grammar) {limit : Int}
    {growth : Growth} (hgrowth : language.grow query limit scope place part = some growth) :
    language.GrowsWord query place part growth := by
  induction part generalizing growth with
  | word mark w =>
      rw [grow] at hgrowth
      cases hgrowth
      refine growsWord_same hpart rfl ?_ _
      split
      · next hmark => exact endIndex_eq 1 (hpart hmark) place
      · exact advance_one place
  | deferred mark part =>
      obtain ⟨hmark, href, id, hrule, hword, htag⟩ := hpart
      rw [grow, if_neg (by simp [hmark])] at hgrowth
      obtain ⟨unfolded, hunfolded, rfl⟩ := Option.map_eq_some_iff.1 hgrowth
      simp only [growDeferred, href, Option.isSome_none, Bool.false_eq_true, if_false,
        hrule] at hunfolded
      have hopen : (Outline.deferred mark part).mark.complete = false := hmark
      have hopened : language.OpenedWord query id unfolded.node :=
        (unfoldWithin_oneWord h hword hopen href htag hunfolded).2
      refine ⟨?_, hopened.oneWord, hopened.notDeferred, ?_, ?_⟩
      · rw [hopened.oneWord.count_eq hopened.notDeferred]
        exact advance_one place
      · intro place
        simp [hopened.admits, Outline.Admits, hrule]
      · intro place text
        simp [hopened.displays, Outline.Displays, hrule]
  | choice mark branches ih =>
      by_cases hmark : mark.complete = true
      · rw [grow, if_pos hmark] at hgrowth
        cases hgrowth
        exact growsWord_same hpart rfl (endIndex_eq 1 (hpart.1 hmark) place) _
      · obtain ⟨-, hne, hall⟩ := hpart
        rw [Bool.not_eq_true] at hmark
        rw [grow, if_neg (by simp [hmark]), growBranches_eq_mapM] at hgrowth
        obtain ⟨grown, hgrown, rfl⟩ := Option.map_eq_some_iff.1 hgrowth
        have hgrows : List.Forall₂ (language.GrowsWord query place) branches grown := by
          refine forall₂_imp_of_mem (mapM_eq_some_iff.1 hgrown) ?_
          intro branch hbranch growth hgrowth
          exact ih branch hbranch (allOneWord_iff.1 hall branch hbranch).2 hgrowth
        obtain ⟨branch, hbranch⟩ := List.exists_mem_of_ne_nil branches hne
        obtain ⟨first, hfirst, hfirstGrows⟩ := exists_right_of_forall₂ hgrows branch hbranch
        have hindex : agreedIndex place (grown.map Growth.index) = (place + 1 : Nat) := by
          rw [agreedIndex_eq (List.mem_map_of_mem hfirst), if_pos, hfirstGrows.index]
          rw [List.all_map, List.all_eq_true]
          intro growth hmem
          obtain ⟨_, -, hword⟩ := exists_left_of_forall₂ hgrows growth hmem
          simp [hword.index, hfirstGrows.index]
        have hwords : ∀ node ∈ grown.map Growth.node,
            node.isDeferred = false ∧ node.OneWord language.grammar := by
          intro node hnode
          obtain ⟨growth, hmem, rfl⟩ := List.mem_map.1 hnode
          obtain ⟨_, -, hword⟩ := exists_left_of_forall₂ hgrows growth hmem
          exact ⟨hword.notDeferred, hword.oneWord⟩
        have hone := oneWord_closeChoice hmark (List.ne_nil_of_mem (List.mem_map_of_mem hfirst))
          hwords
        obtain ⟨mark', hclose⟩ := closeChoice_eq mark (grown.map Growth.node)
        rw [hclose] at hone ⊢
        refine ⟨hindex, hone, rfl, ?_, ?_⟩
        · intro place
          refine someAdmits_iff.trans (Iff.trans ?_ someAdmits_iff.symm)
          exact (exists_mem_congr_of_forall₂ (List.forall₂_map_right_iff.2 (hgrows.imp
            fun branch growth hgrows => (hgrows.admits place).symm))).symm
        · intro place text
          refine someDisplays_iff.trans (Iff.trans ?_ someDisplays_iff.symm)
          exact (exists_mem_congr_of_forall₂ (List.forall₂_map_right_iff.2 (hgrows.imp
            fun branch growth hgrows => (hgrows.displays place text).symm))).symm
  | blank | sequence | scope => exact hpart.elim

omit h in
/-- A pass leaves a load a load. -/
theorem grow_isLoad {part : Outline} (hpart : part.IsLoad language.grammar) {limit index : Int}
    {growth : Growth} (hgrowth : language.grow query limit scope index part = some growth) :
    growth.node.IsLoad language.grammar := by
  cases part with
  | scope mark type =>
      rw [grow] at hgrowth
      cases hgrowth
      trivial
  | deferred mark part =>
      rw [grow] at hgrowth
      split at hgrowth
      · cases hgrowth
        exact hpart
      · obtain ⟨unfolded, hunfolded, rfl⟩ := Option.map_eq_some_iff.1 hgrowth
        obtain ⟨href, id, hrule, hload⟩ := hpart
        obtain ⟨load, hkind⟩ := Grammar.exists_load_of_isLoad hload
        simp only [growDeferred, href, Option.isSome_none, Bool.false_eq_true, if_false, hrule,
          unfold, unfoldFuel, unfoldWithin, hkind] at hunfolded
        split at hunfolded
        · split at hunfolded
          · cases hunfolded
            trivial
          · cases hunfolded
            exact ⟨href, id, hrule, hload⟩
        · cases hunfolded
          exact ⟨href, id, hrule, hload⟩
  | blank | word | sequence | choice => exact hpart.elim

omit h in
theorem growParts_isLoad {parts : List Outline}
    (hparts : ∀ part ∈ parts, part.IsLoad language.grammar) {limit index : Int}
    {grown : PartsGrowth}
    (hgrown : language.growParts query limit scope index parts = some grown) :
    ∀ part ∈ grown.parts, part.IsLoad language.grammar := by
  induction parts generalizing scope index grown with
  | nil =>
      rw [growParts] at hgrown
      cases hgrown
      simp
  | cons part parts ih =>
      by_cases hstop : limit ≤ index
      · rw [growParts, if_pos hstop] at hgrown
        cases hgrown
        exact hparts
      · obtain ⟨head, rest, hhead, hrest, rfl⟩ := growParts_cons_eq_some hstop hgrown
        have hload := grow_isLoad (hparts part (List.mem_cons_self ..)) hhead
        have hloads := ih (fun other hother => hparts other (List.mem_cons_of_mem _ hother)) hrest
        intro other hother
        rcases List.mem_cons.1 hother with rfl | hother
        · exact hload
        · exact hloads other hother

omit h in
/-- A pass over a load that finds a current type: it takes up no place, and behind it no more types
may be current than before. -/
theorem grow_loads {part : Outline} (hpart : part.Loads language scopes) (hscope : scope ∈ scopes)
    {limit : Int} {growth : Growth}
    (hgrowth : language.grow query limit (part.scopeAt scope) place part = some growth) :
    growth.index = place ∧ growth.node.Loads language scopes ∧ growth.node.isDeferred = false ∧
      growth.node.scopesBehind language scopes ⊆ part.scopesBehind language scopes := by
  cases part with
  | scope mark type =>
      obtain ⟨hmark, hcount⟩ := hpart
      rw [grow] at hgrowth
      cases hgrowth
      refine ⟨?_, ⟨hmark, hcount⟩, rfl, subset_rfl⟩
      rw [if_pos hmark]
      exact endIndex_eq 0 hcount place
  | deferred mark part =>
      obtain ⟨hmark, href, ⟨id, hrule, hload⟩, hnone⟩ := hpart
      rw [grow, if_neg (by simp [hmark])] at hgrowth
      obtain ⟨unfolded, hunfolded, rfl⟩ := Option.map_eq_some_iff.1 hgrowth
      simp only [growDeferred, href, Option.isSome_none, Bool.false_eq_true, if_false,
        hrule] at hunfolded
      obtain ⟨type, htype, rfl⟩ := unfoldWithin_load hload hscope hnone hunfolded
      refine ⟨?_, ⟨rfl, rfl⟩, rfl, ?_⟩
      · have hstay : advance place 0 = place := by
          rw [advance_of_nonneg (by omega) le_rfl, Int.add_zero]
        exact hstay
      · rw [Outline.scopesBehind, Outline.scopesBehind, hrule]
        exact Set.singleton_subset_iff.2 htype
  | blank | word | sequence | choice => exact hpart.elim

omit h in
theorem scopeAt_of_loads {part : Outline} (hpart : part.Loads language scopes)
    (hscope : scope ∈ scopes) : part.scopeAt scope ∈ part.scopesBehind language scopes := by
  cases part with
  | scope mark type => exact rfl
  | deferred mark part =>
      obtain ⟨-, -, ⟨id, hrule, -⟩, -⟩ := hpart
      rw [Outline.scopesBehind, hrule]
      exact .inl hscope
  | blank | word | sequence | choice => exact hpart.elim

/-- What a pass over a flat node before the limit comes to: the node shows what it did before, and
if nothing was unfolded, then all is done. -/
def GrowsFlat (language : Language) (query : Query) (known : RuleId → Set (Option TypeId))
    (limit : Nat) (node : Outline) : Prop :=
  ∀ (scopes : Set (Option TypeId)) (scope : Option TypeId) (place : Nat) (growth : Growth),
    scope ∈ scopes → place < limit → node.Flat language query known limit False scopes place →
    language.grow query limit scope place node = some growth →
      growth.node.Flat language query known limit (growth.grew = false) scopes place ∧
        ∀ place text, growth.node.Displays language.grammar query place text ↔
          node.Displays language.grammar query place text

theorem growParts_flat {parts : List Outline}
    (ih : ∀ part ∈ parts, language.GrowsFlat query known limit part) (hscope : scope ∈ scopes)
    (hparts : PartsFlat language query known limit False scopes place parts) {grown : PartsGrowth}
    (hgrown : language.growParts query limit scope place parts = some grown) :
    PartsFlat language query known limit (grown.grew = false) scopes place grown.parts ∧
      ∀ place text, PartsDisplay language.grammar query place grown.parts text ↔
        PartsDisplay language.grammar query place parts text := by
  induction parts generalizing scopes scope place grown with
  | nil => exact hparts.elim
  | cons part parts ihparts =>
      by_cases hstop : (limit : Int) ≤ place
      · rw [growParts, if_pos hstop] at hgrown
        cases hgrown
        exact ⟨hparts.of_le (by omega), fun _ _ => Iff.rfl⟩
      · obtain ⟨head, rest, hhead, hrest, rfl⟩ := growParts_cons_eq_some hstop hgrown
        have hplace : place < limit := by omega
        have hgrew : (head.grew || rest.grew) = false → head.grew = false ∧ rest.grew = false := by
          simp
        have htail := fun other hother => ih other (List.mem_cons_of_mem part hother)
        rcases hparts with ⟨hpart, -, hloads⟩ | ⟨hword, -, -, hflat⟩ | ⟨hload, -, hflat⟩
        · -- what comes after this part are loads, which show nothing wherever they are visited
          have hgrow : language.grow query limit scope place part = some head := by
            cases part with
            | scope mark type => rwa [grow] at hhead ⊢
            | blank | word | deferred | sequence | choice => exact hhead
          obtain ⟨hflat, hsame⟩ := ih part (List.mem_cons_self ..) scopes scope place head hscope
            hplace hpart hgrow
          have hloads' := growParts_isLoad hloads hrest
          refine ⟨.inl ⟨hflat.imp subset_rfl fun hdone => .inl (hgrew hdone).1,
            fun hle => by omega, hloads'⟩, ?_⟩
          intro place text
          simp only [PartsDisplay, not_partsDisplay_of_isLoad hloads,
            not_partsDisplay_of_isLoad hloads', and_false, or_false, hsame]
        · rw [hword.scopeAt] at hhead hrest
          have hgrows := grow_oneWord h hword hhead
          rw [hgrows.index] at hrest
          obtain ⟨hflatRest, hsame⟩ := ihparts htail hscope hflat hrest
          refine ⟨.inr (.inl ⟨hgrows.oneWord, fun hle => by omega, ?_, ?_⟩), ?_⟩
          · intro _ hdeferred
            rw [hgrows.notDeferred] at hdeferred
            cases hdeferred
          · exact hflatRest.imp subset_rfl fun hdone => (hgrew hdone).2
          · intro place text
            simp only [PartsDisplay, hsame, hgrows.admits, hgrows.displays, hword.not_isLoad,
              hgrows.oneWord.not_isLoad, false_and]
        · have hknown := scopeAt_of_loads hload hscope
          obtain ⟨hindex, hload', hdeferred, hbehind⟩ := grow_loads hload hscope hhead
          rw [hindex] at hrest
          obtain ⟨hflatRest, hsame⟩ := ihparts htail hknown hflat hrest
          refine ⟨.inr (.inr ⟨hload', ?_, hflatRest.imp hbehind fun hdone => (hgrew hdone).2⟩), ?_⟩
          · intro _ hdeferred'
            rw [hdeferred] at hdeferred'
            cases hdeferred'
          · intro place text
            simp only [PartsDisplay, hsame, hload.isLoad.not_displays, hload'.isLoad.not_displays,
              hload.isLoad.not_admits, hload'.isLoad.not_admits, hload.isLoad, hload'.isLoad]

/-- A pass keeps a flat outline flat and does not change what it shows. -/
theorem grow_flat {outline : Outline} (hbounds : outline.Everywhere CountBounds) :
    language.GrowsFlat query known limit outline := by
  -- a complete node is left alone, and nothing in it is put off
  have hcomplete : ∀ node : Outline, node.Everywhere CountBounds → node.mark.complete = true →
      node.isExpanded = true := by
    intro node hnode hmark
    refine isExpanded_of_count hnode ?_
    rw [count_of_complete hmark]
    exact (hnode.self hmark).1.trans (hnode.self hmark).2
  induction outline with
  | blank | word | scope =>
      intro scopes scope place growth hscope hplace hflat hgrowth
      rw [grow] at hgrowth
      cases hgrowth
      exact ⟨trivial, fun _ _ => Iff.rfl⟩
  | deferred mark part =>
      intro scopes scope place growth hscope hplace hflat hgrowth
      obtain ⟨hmark, href, htag, -⟩ := hflat
      rw [grow, if_neg (by simp [hmark])] at hgrowth
      obtain ⟨unfolded, hunfolded, rfl⟩ := Option.map_eq_some_iff.1 hgrowth
      simp only [growDeferred, href, Option.isSome_none, Bool.false_eq_true, if_false] at hunfolded
      cases hrule : part.rule with
      | none =>
          rw [hrule] at hunfolded
          cases hunfolded
          refine ⟨⟨hmark, href, htag, fun _ => .inr ?_⟩, fun _ _ => Iff.rfl⟩
          rintro place text ⟨id, hid, -⟩
          rw [hrule] at hid
          cases hid
      | some id =>
          rw [hrule] at hunfolded
          have hshows : ∀ place text,
              (Outline.deferred mark part).Displays language.grammar query place text ↔
                language.grammar.Displays query place id text := by
            intro place text
            simp [Outline.Displays, hrule]
          have hopen : (Outline.deferred mark part).mark.complete = false := hmark
          obtain ⟨htagged, hscopes⟩ := htag id hrule
          have hunrolls :
              language.Unrolls query known limit scopes id (.deferred mark part) unfolded :=
            unfoldWithin_opened h hscope hscopes hopen href htagged hunfolded
          rcases hunrolls with ⟨hsame, hgrew, hsilent⟩ | ⟨hgrew, hopened⟩
          · dsimp only
            rw [hsame]
            refine ⟨⟨hmark, href, htag, fun _ => .inr ?_⟩, fun _ _ => Iff.rfl⟩
            intro place text
            rw [hshows]
            exact hsilent place text
          · refine ⟨(hopened.flat place hplace).imp subset_rfl ?_, ?_⟩
            · intro hdone
              rw [hgrew] at hdone
              cases hdone
            · intro place text
              rw [hshows]
              exact hopened.displays place text
  | choice mark branches ih =>
      intro scopes scope place growth hscope hplace hflat hgrowth
      by_cases hmark : mark.complete = true
      · rw [grow, if_pos hmark] at hgrowth
        cases hgrowth
        exact ⟨hflat.imp subset_rfl fun _ => .inr (hcomplete _ hbounds hmark), fun _ _ => Iff.rfl⟩
      · rw [Bool.not_eq_true] at hmark
        obtain ⟨grown, mark', hgrown, rfl⟩ := grow_choice_eq_some hmark hgrowth
        have hall : List.Forall₂ (fun branch growth =>
            growth.node.Flat language query known limit (growth.grew = false) scopes place ∧
              ∀ place text, growth.node.Displays language.grammar query place text ↔
                branch.Displays language.grammar query place text) branches grown := by
          refine forall₂_imp_of_mem hgrown ?_
          intro branch hbranch growth hgrowth
          exact ih branch hbranch (allEverywhere_iff.1 hbounds.2 branch hbranch) scopes scope place
            growth hscope hplace (allFlat_iff.1 hflat branch hbranch) hgrowth
        refine ⟨allFlat_iff.2 ?_, ?_⟩
        · intro node hnode
          obtain ⟨growth, hmem, rfl⟩ := List.mem_map.1 hnode
          obtain ⟨-, -, hgrowthFlat, -⟩ := exists_left_of_forall₂ hall growth hmem
          refine hgrowthFlat.imp subset_rfl fun hdone => .inl ?_
          simpa using List.any_eq_false.1 hdone growth hmem
        · intro place text
          refine someDisplays_iff.trans (Iff.trans ?_ someDisplays_iff.symm)
          exact (exists_mem_congr_of_forall₂ (List.forall₂_map_right_iff.2 (hall.imp
            fun branch growth hgrows => (hgrows.2 place text).symm))).symm
  | sequence mark info parts ih =>
      intro scopes scope place growth hscope hplace hflat hgrowth
      by_cases hmark : mark.complete = true
      · rw [grow, if_pos hmark] at hgrowth
        cases hgrowth
        exact ⟨hflat.imp subset_rfl fun _ => .inr (hcomplete _ hbounds hmark), fun _ _ => Iff.rfl⟩
      · rw [Bool.not_eq_true] at hmark
        obtain ⟨grown, mark', hgrown, rfl⟩ := grow_sequence_eq_some hmark hgrowth
        exact growParts_flat h (fun part hpart => ih part hpart
          (allEverywhere_iff.1 hbounds.2 part hpart)) hscope hflat hgrown

end Flat

end Language

/-! ### Pruning -/

namespace Outline

variable {language : Language} {grammar : Grammar} {query : Query}
  {known : RuleId → Set (Option TypeId)} {scopes : Set (Option TypeId)} {limit place : Nat}
  {done : Prop} {text : String}

theorem isDeferred_retain (query : Query) (start : Nat) (node : Outline) :
    (node.retain query start).value.isDeferred = node.isDeferred := by
  cases node with
  | blank | word | deferred | scope => rfl
  | sequence | choice =>
      rw [retain]
      split <;> rfl

/-- The node is put off, or takes up no place. -/
def IsQuiet : Outline → Prop
  | .deferred _ _ | .scope _ _ => True
  | _ => False

theorem IsLoad.isQuiet {node : Outline} (h : node.IsLoad grammar) : node.IsQuiet := by
  cases node with
  | deferred | scope => trivial
  | blank | word | sequence | choice => exact h.elim

theorem isQuiet_of_isDeferred {node : Outline} (h : node.isDeferred = true) : node.IsQuiet := by
  cases node with
  | deferred => trivial
  | blank | word | sequence | choice | scope => cases h

/-- Behind the limit all parts of a flat sequence are quiet. -/
theorem PartsFlat.isQuiet {parts : List Outline}
    (h : PartsFlat language query known limit done scopes place parts) (hplace : limit ≤ place) :
    ∀ part ∈ parts, part.IsQuiet := by
  induction parts generalizing scopes place with
  | nil => simp
  | cons part parts ih =>
      intro other hother
      rcases h with ⟨-, hlimit, hloads⟩ | ⟨-, hlimit, -, hrest⟩ | ⟨hload, -, hrest⟩
      · rcases List.mem_cons.1 hother with rfl | hother
        · exact isQuiet_of_isDeferred (hlimit hplace)
        · exact (hloads other hother).isQuiet
      · rcases List.mem_cons.1 hother with rfl | hother
        · exact isQuiet_of_isDeferred (hlimit hplace)
        · exact ih hrest (by omega) other hother
      · rcases List.mem_cons.1 hother with rfl | hother
        · exact hload.isLoad.isQuiet
        · exact ih hrest hplace other hother

/-- Pruning leaves quiet parts alone. -/
theorem retainParts_of_isQuiet {parts : List Outline} (h : ∀ part ∈ parts, part.IsQuiet)
    (start : Nat) : retainParts query start parts = ⟨parts, true⟩ := by
  induction parts generalizing start with
  | nil => rfl
  | cons part parts ih =>
      have hrest := ih fun other hother => h other (List.mem_cons_of_mem _ hother)
      have hpart := h part (List.mem_cons_self ..)
      cases part with
      | deferred | scope => simp [retainParts, retain, hrest]
      | blank | word | sequence | choice => exact hpart.elim

/-- Quiet nodes offer nothing. -/
theorem IsQuiet.offers {node : Outline} (h : node.IsQuiet) (remaining : Int) :
    (node.offers grammar remaining).texts = [] := by
  cases node with
  | deferred | scope => simp [Outline.offers]
  | blank | word | sequence | choice => exact h.elim

theorem partOffers_of_isQuiet {parts : List Outline} (h : ∀ part ∈ parts, part.IsQuiet)
    (remaining : Int) : (partOffers grammar remaining parts).texts = [] := by
  induction parts generalizing remaining with
  | nil => rfl
  | cons part parts ih =>
      have hrest := ih fun other hother => h other (List.mem_cons_of_mem _ hother)
      simp [partOffers, Offers.append, (h part (List.mem_cons_self ..)).offers, hrest]

/-! Single words. -/

theorem OneWord.flat {node : Outline} (h : node.OneWord language.grammar)
    (hdeferred : node.isDeferred = false) :
    node.Flat language query known limit done scopes place := by
  induction node with
  | word mark w => trivial
  | choice mark branches ih =>
      apply allFlat_iff.2
      intro branch hbranch
      obtain ⟨hbranchDeferred, hword⟩ := allOneWord_iff.1 h.2.2 branch hbranch
      exact ih branch hbranch hword hbranchDeferred
  | deferred => cases hdeferred
  | blank | sequence | scope => exact h.elim

/-- A single word shows something at the active place only. -/
theorem OneWord.place_eq {node : Outline} (h : node.OneWord grammar)
    (hdeferred : node.isDeferred = false) (hdisplays : node.Displays grammar query place text) :
    place = query.active := by
  induction node with
  | word mark w => exact hdisplays.1
  | choice mark branches ih =>
      obtain ⟨branch, hbranch, hdisplays⟩ := someDisplays_iff.1 hdisplays
      obtain ⟨hbranchDeferred, hword⟩ := allOneWord_iff.1 h.2.2 branch hbranch
      exact ih branch hbranch hword hbranchDeferred hdisplays
  | deferred => cases hdeferred
  | blank | sequence | scope => exact h.elim

/-- What pruning a single word comes to: it stays if it admits what was typed, and then it is a
single word that admits it. -/
theorem OneWord.retain_admits {node : Outline} (h : node.OneWord grammar)
    (hdeferred : node.isDeferred = false) :
    ((node.retain query place).stays = true ↔ node.Admits grammar query place) ∧
      ((node.retain query place).stays = true → (node.retain query place).value.OneWord grammar ∧
        (node.retain query place).value.Admits grammar query place) := by
  induction node with
  | word mark w =>
      have hstays : ((Outline.word mark w).retain query place).stays = true ↔
          (Outline.word mark w).Admits grammar query place := by
        simp [retain, Admits, Query.Allows]
      exact ⟨hstays, fun hkept => ⟨h, hstays.1 hkept⟩⟩
  | choice mark branches ih =>
      obtain ⟨hcount, hne, hall⟩ := h
      have hbranches := allOneWord_iff.1 hall
      have hih := fun branch hbranch =>
        ih branch hbranch (hbranches branch hbranch).2 (hbranches branch hbranch).1
      rw [retain]
      split
      · next hplace =>
          -- behind the typed words every word is admitted
          obtain ⟨branch, hbranch⟩ := List.exists_mem_of_ne_nil branches hne
          have hadmits : (Outline.choice mark branches).Admits grammar query place :=
            someAdmits_iff.2
              ⟨branch, hbranch, (hih branch hbranch).1.1 (retain_stays_of_le hplace _)⟩
          exact ⟨⟨fun _ => hadmits, fun _ => rfl⟩, fun _ => ⟨⟨hcount, hne, hall⟩, hadmits⟩⟩
      · have hstays : (!(retainBranches query place branches).isEmpty) = true ↔
            (Outline.choice mark branches).Admits grammar query place := by
          refine Iff.trans ?_ someAdmits_iff.symm
          rw [Bool.not_eq_true', List.isEmpty_eq_false_iff_exists_mem]
          constructor
          · rintro ⟨kept, hkept⟩
            obtain ⟨branch, hbranch, hkept, -⟩ := mem_retainBranches.1 hkept
            exact ⟨branch, hbranch, (hih branch hbranch).1.1 hkept⟩
          · rintro ⟨branch, hbranch, hadmits⟩
            exact ⟨_, mem_retainBranches.2 ⟨branch, hbranch, (hih branch hbranch).1.2 hadmits, rfl⟩⟩
        refine ⟨hstays, ?_⟩
        intro hkept
        rw [Bool.not_eq_true', List.isEmpty_eq_false_iff_exists_mem] at hkept
        obtain ⟨kept, hmem⟩ := hkept
        refine ⟨⟨hcount, List.ne_nil_of_mem hmem, allOneWord_iff.2 ?_⟩, someAdmits_iff.2 ?_⟩
        · intro other hother
          obtain ⟨branch, hbranch, hstays, rfl⟩ := mem_retainBranches.1 hother
          rw [isDeferred_retain]
          exact ⟨(hbranches branch hbranch).1, ((hih branch hbranch).2 hstays).1⟩
        · obtain ⟨branch, hbranch, hstays, rfl⟩ := mem_retainBranches.1 hmem
          exact ⟨_, hmem, ((hih branch hbranch).2 hstays).2⟩
  | deferred => cases hdeferred
  | blank | sequence | scope => exact h.elim

/-! Flat outlines. -/

/-- What pruning a flat node comes to: what is left of it is flat, and the node stays and shows a
text exactly if it did before. -/
def PrunesFlat (language : Language) (query : Query) (known : RuleId → Set (Option TypeId))
    (limit : Nat) (done : Prop) (node : Outline) : Prop :=
  ∀ scopes place, node.Flat language query known limit done scopes place →
    ((node.retain query place).stays = true →
      (node.retain query place).value.Flat language query known limit done scopes place) ∧
    ∀ text, (node.retain query place).stays = true ∧
      (node.retain query place).value.Displays language.grammar query place text ↔
        node.Displays language.grammar query place text

theorem retainParts_of_isDeferred {part : Outline} (hpart : part.isDeferred = true)
    (hmark : part.mark.complete = false) (parts : List Outline) :
    retainParts query place (part :: parts) = ⟨part :: parts, true⟩ := by
  cases part with
  | deferred mark part =>
      have hcount : (Outline.deferred mark part).count < 0 := by
        rw [count, if_neg (by simp [show mark.complete = false from hmark])]
        decide
      simp [retainParts, retain, hcount]
  | blank | word | sequence | choice | scope => cases hpart

theorem OneWord.complete_of_isDeferred {node : Outline} (h : node.OneWord grammar)
    (hdeferred : node.isDeferred = true) : node.mark.complete = false := by
  cases node with
  | deferred => exact h.1
  | blank | word | sequence | choice | scope => cases hdeferred

theorem Loads.complete_of_isDeferred {node : Outline} (h : node.Loads language scopes)
    (hdeferred : node.isDeferred = true) : node.mark.complete = false := by
  cases node with
  | deferred => exact h.1
  | blank | word | sequence | choice | scope => cases hdeferred

theorem Loads.count_eq {node : Outline} (h : node.Loads language scopes)
    (hdeferred : node.isDeferred = false) : node.count = 0 := by
  cases node with
  | scope mark type => rw [count, if_pos h.1, h.2]
  | deferred => cases hdeferred
  | blank | word | sequence | choice => exact h.elim

/-- The loads behind the last part that is more than a load stay as they are, wherever they are
looked at. -/
theorem retainParts_of_isLoad {parts : List Outline}
    (hloads : ∀ other ∈ parts, other.IsLoad grammar) (part : Outline) :
    retainParts query place (part :: parts) =
      ⟨(part.retain query place).value :: parts, (part.retain query place).stays⟩ := by
  have hquiet := @retainParts_of_isQuiet query parts fun other hother =>
    (hloads other hother).isQuiet
  rw [retainParts]
  cases hstays : (part.retain query place).stays with
  | false => simp
  | true => simp [hquiet]

/-- Behind a single word that stays, the next place is looked at. -/
theorem OneWord.retainParts_cons {part : Outline} (h : part.OneWord grammar)
    (hdeferred : part.isDeferred = false) (hadmits : part.Admits grammar query place)
    (parts : List Outline) :
    retainParts query place (part :: parts) =
      ⟨(part.retain query place).value :: (retainParts query (place + 1) parts).value,
        (retainParts query (place + 1) parts).stays⟩ := by
  obtain ⟨hiff, hkept⟩ := @OneWord.retain_admits grammar query place part h hdeferred
  have hstays : (part.retain query place).stays = true := hiff.2 hadmits
  have hcount : (part.retain query place).value.count = 1 :=
    (hkept hstays).1.count_eq (by rw [isDeferred_retain, hdeferred])
  simp [retainParts, hstays, hcount]

/-- A single word that is ruled out rules out all parts. -/
theorem OneWord.not_stays {part : Outline} (h : part.OneWord grammar)
    (hdeferred : part.isDeferred = false) (hadmits : ¬ part.Admits grammar query place)
    (parts : List Outline) : (part.retain query place).stays = false ∧
      (retainParts query place (part :: parts)).stays = false := by
  obtain ⟨hiff, -⟩ := @OneWord.retain_admits grammar query place part h hdeferred
  have hstays : (part.retain query place).stays = false := by simpa [hadmits] using hiff
  exact ⟨hstays, by simp [retainParts, hstays]⟩

/-- Where a single word is shown, all that comes after it stays: a word at the active place is the
last one to be looked at. -/
theorem OneWord.stays_and_iff (hactive : query.words.length ≤ query.active + 1) {part : Outline}
    (h : part.OneWord grammar) (hdeferred : part.isDeferred = false) {parts : List Outline}
    {later : Prop} :
    ((retainParts query (place + 1) parts).stays = true ∧
        (part.Displays grammar query place text ∨ later)) ↔
      part.Displays grammar query place text ∨
        ((retainParts query (place + 1) parts).stays = true ∧ later) := by
  constructor
  · rintro ⟨hstays, hhere | hlater⟩
    · exact .inl hhere
    · exact .inr ⟨hstays, hlater⟩
  · rintro (hhere | ⟨hstays, hlater⟩)
    · have hplace := h.place_eq hdeferred hhere
      exact ⟨retainParts_stays_of_le (by omega) _, .inl hhere⟩
    · exact ⟨hstays, .inr hlater⟩

/-- Behind a load that has its type, the same place is looked at. -/
theorem Loads.retainParts_cons {part : Outline} (h : part.Loads language scopes)
    (hdeferred : part.isDeferred = false) (parts : List Outline) :
    retainParts query place (part :: parts) =
      ⟨part :: (retainParts query place parts).value, (retainParts query place parts).stays⟩ := by
  have hcount := h.count_eq hdeferred
  cases part with
  | scope mark type => simp [retainParts, retain, hcount]
  | deferred => cases hdeferred
  | blank | word | sequence | choice => exact h.elim

/-- What pruning the parts of a flat sequence at a place comes to, in the same way. -/
def PartsPruneFlat (language : Language) (query : Query) (known : RuleId → Set (Option TypeId))
    (limit : Nat) (done : Prop) (scopes : Set (Option TypeId)) (place : Nat)
    (parts : List Outline) : Prop :=
  ((retainParts query place parts).stays = true →
    PartsFlat language query known limit done scopes place (retainParts query place parts).value) ∧
  ∀ text, (retainParts query place parts).stays = true ∧
    PartsDisplay language.grammar query place (retainParts query place parts).value text ↔
      PartsDisplay language.grammar query place parts text

/-- A part that is put off hides the rest from pruning. -/
theorem partsPruneFlat_of_isDeferred {part : Outline} (hdeferred : part.isDeferred = true)
    (hmark : part.mark.complete = false) {parts : List Outline}
    (h : PartsFlat language query known limit done scopes place (part :: parts)) :
    PartsPruneFlat language query known limit done scopes place (part :: parts) := by
  rw [PartsPruneFlat, retainParts_of_isDeferred hdeferred hmark]
  exact ⟨fun _ => h, fun _ => ⟨And.right, fun hdisplays => ⟨rfl, hdisplays⟩⟩⟩

theorem PrunesFlat.last {part : Outline} (h : part.PrunesFlat language query known limit done)
    (hflat : part.Flat language query known limit done scopes place)
    (hlimit : limit ≤ place → part.isDeferred = true) {parts : List Outline}
    (hloads : ∀ other ∈ parts, other.IsLoad language.grammar) :
    PartsPruneFlat language query known limit done scopes place (part :: parts) := by
  obtain ⟨hkeptFlat, hdisplays⟩ := h scopes place hflat
  rw [PartsPruneFlat, retainParts_of_isLoad hloads]
  refine ⟨?_, ?_⟩
  · intro hstays
    refine .inl ⟨hkeptFlat hstays, ?_, hloads⟩
    rwa [isDeferred_retain]
  · intro text
    simp only [PartsDisplay, not_partsDisplay_of_isLoad hloads, and_false, or_false]
    exact hdisplays text

theorem PrunesFlat.ruledOut {part : Outline} (h : part.PrunesFlat language query known limit done)
    (hword : part.OneWord language.grammar) (hdeferred : part.isDeferred = false)
    (hadmits : ¬ part.Admits language.grammar query place) (parts : List Outline) :
    PartsPruneFlat language query known limit done scopes place (part :: parts) := by
  obtain ⟨hstays, hparts⟩ := hword.not_stays hdeferred hadmits parts
  rw [PartsPruneFlat, hparts]
  refine ⟨nofun, ?_⟩
  intro text
  have hfirst := (h scopes place (hword.flat hdeferred)).2 text
  simp only [hstays, Bool.false_eq_true, false_and, false_iff] at hfirst
  simp [PartsDisplay, hfirst, hword.not_isLoad, hadmits]

theorem PrunesFlat.next (hactive : query.words.length ≤ query.active + 1) {part : Outline}
    (h : part.PrunesFlat language query known limit done) (hword : part.OneWord language.grammar)
    (hdeferred : part.isDeferred = false) (hadmits : part.Admits language.grammar query place)
    (hlimit : limit ≤ place → part.isDeferred = true) {parts : List Outline}
    (hparts : PartsPruneFlat language query known limit done scopes (place + 1) parts) :
    PartsPruneFlat language query known limit done scopes place (part :: parts) := by
  obtain ⟨hflatRest, hrest⟩ := hparts
  obtain ⟨hiff, hkept⟩ := @OneWord.retain_admits _ query place part hword hdeferred
  have hstays : (part.retain query place).stays = true := hiff.2 hadmits
  obtain ⟨hone, hkeptAdmits⟩ := hkept hstays
  have hkeptDeferred : (part.retain query place).value.isDeferred = false := by
    rw [isDeferred_retain, hdeferred]
  rw [PartsPruneFlat, hword.retainParts_cons hdeferred hadmits]
  refine ⟨?_, ?_⟩
  · intro hrestStays
    refine .inr (.inl ⟨hone, ?_, ?_, hflatRest hrestStays⟩)
    · rwa [hkeptDeferred, ← hdeferred]
    · intro _ htrue
      rw [hkeptDeferred] at htrue
      cases htrue
  · intro text
    have hfirst := (h scopes place (hword.flat hdeferred)).2 text
    simp only [hstays, true_and] at hfirst
    simp only [PartsDisplay, hone.not_isLoad, hword.not_isLoad, false_and, false_or, hadmits,
      hkeptAdmits, true_and, hfirst, ← hrest]
    exact hword.stays_and_iff hactive hdeferred

theorem Loads.partsPruneFlat {part : Outline} (h : part.Loads language scopes)
    (hdeferred : part.isDeferred = false) {parts : List Outline}
    (hparts : PartsPruneFlat language query known limit done
      (part.scopesBehind language scopes) place parts) :
    PartsPruneFlat language query known limit done scopes place (part :: parts) := by
  obtain ⟨hflatRest, hrest⟩ := hparts
  rw [PartsPruneFlat, h.retainParts_cons hdeferred]
  refine ⟨?_, ?_⟩
  · intro hstays
    refine .inr (.inr ⟨h, ?_, hflatRest hstays⟩)
    intro _ htrue
    rw [hdeferred] at htrue
    cases htrue
  · intro text
    simp only [PartsDisplay, h.isLoad, h.isLoad.not_displays, h.isLoad.not_admits, true_and,
      false_and, or_false, false_or, ← hrest]

theorem retainParts_flat (hactive : query.words.length ≤ query.active + 1) {parts : List Outline}
    (ih : ∀ part ∈ parts, part.PrunesFlat language query known limit done)
    (h : PartsFlat language query known limit done scopes place parts) :
    PartsPruneFlat language query known limit done scopes place parts := by
  induction parts generalizing scopes place with
  | nil => exact h.elim
  | cons part parts ihparts =>
      have hpart := ih part (List.mem_cons_self ..)
      have htail := fun other hother => ih other (List.mem_cons_of_mem part hother)
      have hparts := h
      rcases h with ⟨hflat, hlimit, hloads⟩ | ⟨hword, hlimit, hbefore, hrest⟩ |
        ⟨hload, hbefore, hrest⟩
      · exact hpart.last hflat hlimit hloads
      · cases hdeferred : part.isDeferred with
        | true =>
            exact partsPruneFlat_of_isDeferred hdeferred (hword.complete_of_isDeferred hdeferred)
              hparts
        | false =>
            by_cases hadmits : part.Admits language.grammar query place
            · exact hpart.next hactive hword hdeferred hadmits hlimit (ihparts htail hrest)
            · exact hpart.ruledOut hword hdeferred hadmits parts
      · cases hdeferred : part.isDeferred with
        | true =>
            exact partsPruneFlat_of_isDeferred hdeferred (hload.complete_of_isDeferred hdeferred)
              hparts
        | false => exact hload.partsPruneFlat hdeferred (ihparts htail hrest)

/-- A choice stays with some branch that has a property exactly if a branch does. -/
theorem exists_mem_retainBranches {P : Outline → Prop} {branches : List Outline} :
    ((!(retainBranches query place branches).isEmpty) = true ∧
        ∃ kept ∈ retainBranches query place branches, P kept) ↔
      ∃ branch ∈ branches,
        (branch.retain query place).stays = true ∧ P (branch.retain query place).value := by
  constructor
  · rintro ⟨-, kept, hkept, hproperty⟩
    obtain ⟨branch, hbranch, hstays, rfl⟩ := mem_retainBranches.1 hkept
    exact ⟨branch, hbranch, hstays, hproperty⟩
  · rintro ⟨branch, hbranch, hstays, hproperty⟩
    have hkept := mem_retainBranches.2 ⟨branch, hbranch, hstays, rfl⟩
    refine ⟨?_, _, hkept, hproperty⟩
    rw [Bool.not_eq_true', List.isEmpty_eq_false_iff_exists_mem]
    exact ⟨_, hkept⟩

/-- Pruning keeps a flat outline flat and does not change what it shows. -/
theorem retain_flat (hactive : query.words.length ≤ query.active + 1) (node : Outline) :
    node.PrunesFlat language query known limit done := by
  induction node with
  | blank | deferred | scope =>
      intro scopes place h
      exact ⟨fun _ => h, fun text => by simp [retain, Displays]⟩
  | word mark w =>
      intro scopes place h
      refine ⟨fun _ => trivial, ?_⟩
      intro text
      simp only [retain, Displays, Query.Allows, Bool.or_eq_true]
      tauto
  | choice mark branches ih =>
      intro scopes place h
      rw [retain]
      split
      · exact ⟨fun _ => h, fun _ => by simp⟩
      · have hbranches := fun branch hbranch =>
          ih branch hbranch scopes place (allFlat_iff.1 h branch hbranch)
        refine ⟨?_, ?_⟩
        · intro _
          apply allFlat_iff.2
          intro kept hkept
          obtain ⟨branch, hbranch, hstays, rfl⟩ := mem_retainBranches.1 hkept
          exact (hbranches branch hbranch).1 hstays
        · intro text
          rw [Displays, Displays, someDisplays_iff, someDisplays_iff]
          exact exists_mem_retainBranches.trans (exists_congr fun branch =>
            and_congr_right fun hbranch => (hbranches branch hbranch).2 text)
  | sequence mark info parts ih =>
      intro scopes place h
      rw [retain]
      split
      · exact ⟨fun _ => h, fun _ => by simp⟩
      · exact retainParts_flat hactive ih h

/-! ### Reading off -/

/-- Nothing is shown behind the active place. -/
theorem Displays.place_le {node : Outline} (h : node.Displays grammar query place text) :
    place ≤ query.active := by
  induction node generalizing place with
  | word mark w => exact h.1.le
  | deferred mark part =>
      obtain ⟨id, -, hdisplays⟩ := h
      exact hdisplays.place_le
  | choice mark branches ih =>
      obtain ⟨branch, hbranch, hdisplays⟩ := someDisplays_iff.1 h
      exact ih branch hbranch hdisplays
  | sequence mark info parts ih =>
      have hparts : PartsDisplay grammar query place parts text := h
      clear h
      induction parts generalizing place with
      | nil => exact hparts.elim
      | cons part parts ihparts =>
          have htail := fun other hother => @ih other (List.mem_cons_of_mem part hother)
          rcases hparts with hhere | ⟨-, hrest⟩ | ⟨-, hrest⟩
          · exact ih part (List.mem_cons_self ..) hhere
          · exact ihparts htail hrest
          · exact (Nat.le_succ place).trans (ihparts htail hrest)
  | blank | scope => exact h.elim

/-- The node stays, and the walk that starts at the place offers what is shown. -/
def OffersShown (language : Language) (query : Query) (place : Nat) (node : Outline) : Prop :=
  ∀ text, (node.retain query place).stays = true ∧
    text ∈ ((node.retain query place).value.offers language.grammar (query.active - place)).texts ↔
      node.Displays language.grammar query place text

/-- The same for parts one after another. -/
def PartsOfferShown (language : Language) (query : Query) (place : Nat) (parts : List Outline) :
    Prop :=
  ∀ text, (retainParts query place parts).stays = true ∧
    text ∈ (partOffers language.grammar (query.active - place)
      (retainParts query place parts).value).texts ↔
      PartsDisplay language.grammar query place parts text

theorem mem_partOffers_cons {remaining : Int} {part : Outline} {parts : List Outline} :
    text ∈ (partOffers grammar remaining (part :: parts)).texts ↔
      text ∈ (part.offers grammar remaining).texts ∨
        text ∈ (partOffers grammar (remaining - part.count) parts).texts := by
  simp [partOffers, Offers.append]

/-- A single word, and behind it the next place. -/
theorem OffersShown.next (hwords : query.words.length = query.active + 1) {part : Outline}
    (h : part.OffersShown language query place) (hword : part.OneWord language.grammar)
    (hdeferred : part.isDeferred = false) {parts : List Outline}
    (hparts : PartsOfferShown language query (place + 1) parts) :
    PartsOfferShown language query place (part :: parts) := by
  intro text
  have hfirst := h text
  by_cases hadmits : part.Admits language.grammar query place
  · obtain ⟨hiff, hkept⟩ := @OneWord.retain_admits _ query place part hword hdeferred
    have hstays : (part.retain query place).stays = true := hiff.2 hadmits
    have hcount : (part.retain query place).value.count = 1 :=
      (hkept hstays).1.count_eq (by rw [isDeferred_retain, hdeferred])
    have hremaining : (query.active : Int) - place - 1 = query.active - (place + 1 : Nat) := by
      omega
    simp only [hstays, true_and] at hfirst
    rw [hword.retainParts_cons hdeferred hadmits, mem_partOffers_cons, hcount, hremaining, hfirst]
    simp only [PartsDisplay, hword.not_isLoad, false_and, false_or, hadmits, true_and,
      ← hparts text]
    exact hword.stays_and_iff hwords.le hdeferred
  · obtain ⟨hstays, hgone⟩ := hword.not_stays hdeferred hadmits parts
    simp only [hstays, Bool.false_eq_true, false_and, false_iff] at hfirst
    simp [hgone, PartsDisplay, hfirst, hword.not_isLoad, hadmits]

/-- A load that has its type, and behind it the same place. -/
theorem Loads.partsOfferShown {part : Outline} (h : part.Loads language scopes)
    (hdeferred : part.isDeferred = false) {parts : List Outline}
    (hparts : PartsOfferShown language query place parts) :
    PartsOfferShown language query place (part :: parts) := by
  intro text
  rw [h.retainParts_cons hdeferred, mem_partOffers_cons, h.isLoad.isQuiet.offers,
    h.count_eq hdeferred, Int.sub_zero]
  simp only [PartsDisplay, h.isLoad, h.isLoad.not_displays, h.isLoad.not_admits, true_and,
    false_and, or_false, false_or, List.not_mem_nil]
  exact hparts text

theorem partsOfferShown_of_flat (hwords : query.words.length = query.active + 1)
    {parts : List Outline}
    (ih : ∀ part ∈ parts, ∀ scopes, ∀ place ≤ query.active,
      part.Flat language query known (query.active + 1) True scopes place →
        part.OffersShown language query place)
    (h : PartsFlat language query known (query.active + 1) True scopes place parts) :
    PartsOfferShown language query place parts := by
  induction parts generalizing scopes place with
  | nil => exact h.elim
  | cons part parts ihparts =>
      have htail := fun other hother => ih other (List.mem_cons_of_mem part hother)
      rcases Nat.lt_or_ge query.active place with hbehind | hle
      · -- behind the active place nothing is offered, and nothing is shown
        have hquiet := h.isQuiet (by omega)
        intro text
        rw [retainParts_of_isQuiet hquiet, partOffers_of_isQuiet hquiet]
        simp only [List.not_mem_nil, and_false, false_iff]
        intro hdisplays
        have hsequence :
            (Outline.sequence {} {} (part :: parts)).Displays language.grammar query place text :=
          hdisplays
        have hactive := hsequence.place_le
        omega
      · have hthere : (True → part.isDeferred = true → query.active + 1 ≤ place) →
            part.isDeferred = false := by
          intro hbefore
          by_contra hdeferred
          have := hbefore trivial (by simpa using hdeferred)
          omega
        have hpart := ih part (List.mem_cons_self ..) scopes place hle
        rcases h with ⟨hflat, -, hloads⟩ | ⟨hword, -, hbefore, hrest⟩ | ⟨hload, hbefore, hrest⟩
        · have hquiet := fun other hother => (hloads other hother).isQuiet
          intro text
          rw [retainParts_of_isLoad hloads, mem_partOffers_cons, partOffers_of_isQuiet hquiet]
          simp only [PartsDisplay, not_partsDisplay_of_isLoad hloads, and_false, or_false,
            List.not_mem_nil]
          exact hpart hflat text
        · have hdeferred := hthere hbefore
          exact (hpart (hword.flat hdeferred)).next hwords hword hdeferred (ihparts htail hrest)
        · exact hload.partsOfferShown (hthere hbefore) (ihparts htail hrest)

/-- If all is done, then the walk over a pruned flat outline offers what the outline shows. -/
theorem offersShown_of_flat (hclosing : ∀ slot, language.grammar.closing? slot = none)
    (hwords : query.words.length = query.active + 1) {node : Outline}
    (hplace : place ≤ query.active)
    (h : node.Flat language query known (query.active + 1) True scopes place) :
    node.OffersShown language query place := by
  have hahead : ¬ (query.active : Int) - place = pastQuery := by
    rw [pastQuery]
    omega
  have hwithin : ¬ query.words.length ≤ place := by omega
  induction node generalizing scopes place with
  | blank | scope =>
      intro text
      simp [retain, offers, Displays]
  | deferred mark part =>
      obtain ⟨-, -, -, hsilent⟩ := h
      intro text
      have hnot := (hsilent trivial).resolve_left (by omega) place text
      simpa [retain, offers] using hnot
  | word mark w =>
      intro text
      have hhere : (query.active : Int) - place = 0 ↔ place = query.active := by omega
      simp only [retain, offers, hahead, if_false, hhere, hclosing, Word.offered, Displays,
        Query.Allows, Bool.or_eq_true]
      split
      · next hshown => simp [hshown]
      · next hshown =>
          simp only [List.not_mem_nil, and_false, false_iff]
          rintro ⟨rfl, -, hblock, htext, -⟩
          exact hshown ⟨rfl, hblock, htext⟩
  | choice mark branches ih =>
      intro text
      have hbranches := fun branch hbranch =>
        ih branch hbranch hplace (allFlat_iff.1 h branch hbranch) hahead hwithin
      rw [retain, if_neg hwithin]
      simp only [offers, if_neg hahead, mem_branchOffers, Displays, someDisplays_iff]
      exact exists_mem_retainBranches.trans (exists_congr fun branch =>
        and_congr_right fun hbranch => hbranches branch hbranch text)
  | sequence mark info parts ih =>
      intro text
      rw [retain, if_neg hwithin]
      simp only [offers, if_neg hahead]
      refine partsOfferShown_of_flat hwords ?_ h text
      intro part hpart scopes place hplace hflat
      refine ih part hpart hplace hflat ?_ (by omega)
      rw [pastQuery]
      omega

end Outline

/-! ### The passes -/

namespace Language

open Outline

variable {language : Language} {query : Query} {known : RuleId → Set (Option TypeId)} {limit : Nat}
  {scope : Option TypeId} {blocks : List RuleId}

/-- The rule that a request starts from: the innermost block around the cursor, or the root outside
all blocks. -/
def start? (language : Language) (blocks : List RuleId) : Option RuleId :=
  if blocks.isEmpty then language.grammar.root else blocks.head?

section Flat

variable (h : language.Flat known)
include h

theorem Flat.endKeyword?_eq_none (id : RuleId) : language.grammar.endKeyword? id = none := by
  rw [Grammar.endKeyword?]
  split
  · next hkind => cases h.simple id _ hkind
  · rfl

theorem Flat.closing?_eq_none (slot : Option Slot) : language.grammar.closing? slot = none :=
  Grammar.closing?_eq_none h.endKeyword?_eq_none slot

/-- The node for the rule that a request starts from is flat and shows what the rule shows. -/
theorem unfold_flat (hlimit : 0 < limit) {start : Option RuleId}
    (hscope : ∀ id, start = some id → scope ∈ known id) {unfolded : Unfolded}
    (hunfolded : language.unfold scope true start (.blank {}) = some unfolded) :
    unfolded.node.Flat language query known limit False {scope} 0 ∧
      ∀ text, unfolded.node.Displays language.grammar query 0 text ↔
        ∃ id, start = some id ∧ language.grammar.Displays query 0 id text := by
  cases start with
  | none =>
      simp only [unfold, unfoldFuel, unfoldWithin] at hunfolded
      cases hunfolded
      exact ⟨trivial, fun text => by simp [Outline.Displays]⟩
  | some id =>
      have hblank : language.grammar.Untagged (Outline.blank {}).mark.slot id := untagged_none id
      have hknown : {scope} ⊆ known id := Set.singleton_subset_iff.2 (hscope id rfl)
      have hunrolls : language.Unrolls query known limit {scope} id (.blank {}) unfolded :=
        unfoldWithin_opened h (Set.mem_singleton scope) hknown rfl rfl hblank hunfolded
      have hopened := hunrolls.opened
      exact ⟨hopened.flat 0 hlimit, fun text => by simp [hopened.displays]⟩

/-- The seed is flat and shows what the rule shows that the request starts from. -/
theorem seed_flat (hactive : query.words.length ≤ query.active + 1) (hlimit : 0 < limit)
    (hscope : ∀ id, language.start? blocks = some id → scope ∈ known id) {outline : Outline}
    (hseed : language.seed query scope blocks = some outline) :
    outline.Flat language query known limit False {scope} 0 ∧
      ∀ text, outline.Displays language.grammar query 0 text ↔
        ∃ id, language.start? blocks = some id ∧ language.grammar.Displays query 0 id text := by
  obtain ⟨branches, hbranches, rfl⟩ := Option.map_eq_some_iff.1 hseed
  obtain ⟨others, hblocks⟩ : ∃ others,
      language.seedBlocks blocks = language.start? blocks :: others := by
    cases blocks with
    | nil => exact ⟨[], rfl⟩
    | cons block blocks => exact ⟨blocks.map some, rfl⟩
  have hkeyword : (language.start? blocks).bind language.grammar.endKeyword? = none := by
    cases language.start? blocks with
    | none => rfl
    | some id => exact h.endKeyword?_eq_none id
  -- without blocks no commands from further out show through, and no keyword is offered
  simp only [hblocks, seedBranches, isTransparent, blockNode, hkeyword,
    Option.filter_none] at hbranches
  obtain ⟨node, hnode, hkept⟩ := Option.bind_eq_some_iff.1 hbranches
  obtain ⟨unfolded, hunfolded, rfl⟩ := Option.map_eq_some_iff.1 hnode
  obtain ⟨hflat, hdisplays⟩ := unfold_flat h hlimit hscope hunfolded
  obtain ⟨hkeptFlat, hkeptDisplays⟩ := retain_flat hactive unfolded.node {scope} 0 hflat
  have hbranches : branches = (unfolded.node.prune query 0).toList := by simpa using hkept.symm
  subst hbranches
  refine ⟨allFlat_iff.2 ?_, ?_⟩
  · intro branch hbranch
    obtain ⟨hstays, rfl⟩ := prune_eq_some (Option.mem_toList.1 hbranch)
    exact hkeptFlat hstays
  · intro text
    rw [← hdisplays, ← hkeptDisplays, Outline.Displays, someDisplays_iff, prune]
    split
    · next hstays => simp [hstays]
    · next hstays => simp [hstays]

/-- What the passes lead to offers what the outline shows that they start from. -/
theorem settleWithin_flat (hwords : query.words.length = query.active + 1) {passes : Nat}
    {outline : Outline} {outcome : Option Outline}
    (hreached : language.Reached query scope blocks (query.active + 1 : Nat) outline)
    (hflat : outline.Flat language query known (query.active + 1) False {scope} 0)
    (houtcome : language.settleWithin query scope (query.active + 1 : Nat) passes outline =
      some outcome) (text : String) :
    (∃ settled, outcome = some settled ∧
        text ∈ (settled.offers language.grammar query.active).texts) ↔
      outline.Displays language.grammar query 0 text := by
  induction passes generalizing outline with
  | zero => cases houtcome
  | succ passes ih =>
      obtain ⟨growth, hgrowth, houtcome⟩ := Option.bind_eq_some_iff.1 houtcome
      obtain ⟨hgrown, hsame⟩ := grow_flat h hreached.countBounds {scope} scope 0 growth
        (Set.mem_singleton scope) (by omega) hflat hgrowth
      obtain ⟨hkeptFlat, hkept⟩ := retain_flat hwords.le growth.node {scope} 0 hgrown
      rw [← hsame]
      split at houtcome
      · next hpruned =>
          -- an outline that is ruled out shows nothing
          cases houtcome
          have hstays : (growth.node.retain query 0).stays = false := by
            simpa [prune] using hpruned
          rw [← hkept]
          simp [hstays]
      · next pruned hpruned =>
          have hround := hreached.round hgrowth hpruned
          obtain ⟨hstays, rfl⟩ := prune_eq_some hpruned
          split at houtcome
          · rw [ih hround ((hkeptFlat hstays).imp subset_rfl False.elim) houtcome, ← hkept]
            simp [hstays]
          · next hgrew =>
              cases houtcome
              have hdone :
                  growth.node.Flat language query known (query.active + 1) True {scope} 0 :=
                hgrown.imp subset_rfl fun _ => .inl (by simpa using hgrew)
              have hoffers := offersShown_of_flat h.closing?_eq_none hwords (Nat.zero_le _) hdone
                text
              simpa [hstays] using hoffers

/-! ### Suggestions -/

omit h in
/-- Outside include commands the suggestions are ranked. -/
theorem rank_suggestions {files : FileTree} {request : Request} {answer : Completion}
    (hquery : (language.suggestQuery request).isInclude language.settings.includeCommands = false)
    (hanswer : language.suggest files request = some answer) :
    Ranking.rank answer.suggestions = answer.suggestions := by
  rw [suggestQuery] at hquery
  simp only [suggest, hquery, Bool.false_eq_true, if_false] at hanswer
  obtain ⟨outcome, -, rfl⟩ := Option.map_eq_some_iff.1 hanswer
  cases outcome with
  | none =>
      refine List.eq_nil_iff_forall_not_mem.2 ?_
      intro text htext
      simp [Ranking.mem_rank] at htext
  | some outline => exact Ranking.rank_congr fun _ => Ranking.mem_rank

/-- In a flat language without recursion every request is answered, and outside include commands the
texts are suggested that the rule shows that the request starts from. -/
theorem mem_suggestions_of_flat {rank : RuleId → Nat} (hranked : language.Ranked rank)
    {request : Request}
    (hscope : ∀ id, language.start? request.blocks = some id → request.scope ∈ known id)
    (hquery : (language.suggestQuery request).isInclude language.settings.includeCommands = false)
    (files : FileTree) :
    ∃ answer, language.suggest files request = some answer ∧ ∀ text, text ∈ answer.suggestions ↔
      ∃ id, language.start? request.blocks = some id ∧
        language.grammar.Displays (language.suggestQuery request) 0 id text := by
  obtain ⟨depth, hdepth⟩ := hranked.exists_isDepth
  obtain ⟨typed, htyped, hactive⟩ := Reading.ofText_query hquery
  have hwords : (language.suggestQuery request).words.length =
      (language.suggestQuery request).active + 1 := by
    rw [suggestQuery, htyped, hactive, List.length_append, List.length_singleton]
  obtain ⟨outcome, houtcome⟩ := exists_settle_of_isDepth hdepth (language.suggestQuery request)
    request.scope request.blocks (language.suggestQuery request).words.length
  obtain ⟨answer, hanswer, hmem⟩ := exists_suggest_of_outcome files hquery houtcome
  rw [hwords] at houtcome
  obtain ⟨seed, hseed, hsettled⟩ := Option.bind_eq_some_iff.1 houtcome
  obtain ⟨hflat, hdisplays⟩ := seed_flat h hwords.le (Nat.succ_pos _) hscope hseed
  refine ⟨answer, hanswer, ?_⟩
  intro text
  rw [hmem, settleWithin_flat h hwords (.seed hseed) hflat hsettled, hdisplays]

end Flat

end Language

end Typeahead
