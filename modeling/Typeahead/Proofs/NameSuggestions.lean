/-
Which known names are suggested.

Take two languages that differ in the known names of one kind only.  Their passes over an outline
differ in what they list for that kind, and in nothing else: not in where parts end, nor in whether
anything was unfolded.  If no list for the kind is made in a part that stays, pruning leaves the same
outline in both.  So the names of a kind either are all suggested, because some pass came upon a
reference to them at the cursor, or they make no difference to the answer at all.

Main definitions:

* `Typeahead.Language.SameBut` — languages that differ in the known names of one kind only;
* `Typeahead.Outline.SameKept` — pruning leaves the same of two nodes.

Main results:

* `Typeahead.Language.SameBut.grow_alike` — the passes differ in nothing but lists of names;
* `Typeahead.Language.SameBut.settleWithin_eq` — without a list for the kind, the runs are the same;
* `Typeahead.Language.suggest_findsNames` — names are all suggested or make no difference;
* `Typeahead.Language.not_suggest_names` — a command with a name at the cursor that is not suggested.
-/

import Typeahead.Proofs.KnownNames
import Typeahead.Proofs.NameTiming

set_option relaxedAutoImplicit false
set_option autoImplicit false

namespace Typeahead

theorem rel_refl {α : Type} {R : α → α → Prop} (h : ∀ a, R a a) (x : Option α) :
    Option.Rel R x x := by
  cases x with
  | none => exact .none
  | some a => exact .some (h a)

/-- The two languages differ in the known names of the kind only. -/
structure Language.SameBut (kind : String) (language other : Language) : Prop where
  grammar : other.grammar = language.grammar
  types : other.types = language.types
  settings : other.settings = language.settings
  candidates : ∀ scope reference, reference ≠ .name kind →
    other.candidates scope reference = language.candidates scope reference

/-- The two nodes have the same mark and the same number of words. -/
structure Outline.Alike (node other : Outline) : Prop where
  mark : other.mark = node.mark
  count : other.count = node.count

/-- Two outcomes of a pass that differ in the node only, and there not in the number of words. -/
structure Growth.Alike (growth other : Growth) : Prop where
  node : growth.node.Alike other.node
  index : other.index = growth.index
  grew : other.grew = growth.grew

/-- The same for the parts of a sequence. -/
structure PartsGrowth.Alike (grown other : PartsGrowth) : Prop where
  parts : List.Forall₂ Outline.Alike grown.parts other.parts
  index : other.index = grown.index
  grew : other.grew = grown.grew
  complete : other.complete = grown.complete

namespace Outline

theorem alike_refl (node : Outline) : node.Alike node := ⟨rfl, rfl⟩

theorem Alike.closeSequence {parts others : List Outline} (h : List.Forall₂ Alike parts others)
    (mark : Mark) (info : SequenceInfo) (complete : Bool) (limit : Int) :
    (closeSequence mark info parts complete limit).Alike
      (Outline.closeSequence mark info others complete limit) := by
  have hsum : sumCounts others = sumCounts parts := sumCounts_congr (h.imp fun _ _ => Alike.count)
  simp only [Outline.closeSequence, hsum, ← h.length_eq]
  split
  · exact ⟨rfl, rfl⟩
  · exact ⟨rfl, by simp only [Outline.count, hsum]⟩

theorem Alike.closeChoice {branches others : List Outline} (h : List.Forall₂ Alike branches others)
    (mark : Mark) : (closeChoice mark branches).Alike (Outline.closeChoice mark others) := by
  have hmax : maxCounts others = maxCounts branches :=
    maxCounts_forall₂ (h.imp fun _ _ => Alike.count)
  have hall : (others.all fun branch => branch.mark.complete) =
      branches.all fun branch => branch.mark.complete := by
    clear hmax
    induction h with
    | nil => rfl
    | cons hbranch _ ih => rw [List.all_cons, List.all_cons, hbranch.mark, ih]
  simp only [Outline.closeChoice, hmax, hall]
  split
  · exact ⟨rfl, rfl⟩
  · exact ⟨rfl, by simp only [Outline.count, hmax]⟩

/-- Pruning keeps both nodes or none, and leaves the same of them. -/
def SameKept (query : Query) (start : Nat) (node other : Outline) : Prop :=
  (other.retain query start).stays = (node.retain query start).stays ∧
    ((node.retain query start).stays = true →
      (other.retain query start).value = (node.retain query start).value)

/-- The same for the parts of a sequence. -/
def PartsSameKept (query : Query) (start : Nat) (parts others : List Outline) : Prop :=
  (retainParts query start others).stays = (retainParts query start parts).stays ∧
    ((retainParts query start parts).stays = true →
      (retainParts query start others).value = (retainParts query start parts).value)

theorem sameKept_refl (query : Query) (start : Nat) (node : Outline) :
    SameKept query start node node := ⟨rfl, fun _ => rfl⟩

theorem SameKept.prune {query : Query} {node other : Outline} (h : SameKept query 0 node other) :
    other.prune query 0 = node.prune query 0 := by
  obtain ⟨hstays, hvalue⟩ := h
  rw [Outline.prune, Outline.prune, hstays]
  split
  · next hkept => rw [hvalue hkept]
  · rfl

theorem SameKept.retainBranches {query : Query} {start : Nat} {branches others : List Outline}
    (h : List.Forall₂ (SameKept query start) branches others) :
    retainBranches query start others = Outline.retainBranches query start branches := by
  induction h with
  | nil => rfl
  | cons hbranch _ ih =>
      obtain ⟨hstays, hvalue⟩ := hbranch
      simp only [Outline.retainBranches, hstays, ih]
      split
      · next hkept => rw [hvalue hkept]
      · rfl

theorem SameKept.sequence {query : Query} {start : Nat} {parts others : List Outline}
    (h : PartsSameKept query start parts others) (hwithin : ¬ query.words.length ≤ start)
    (mark : Mark) (info : SequenceInfo) :
    SameKept query start (.sequence mark info parts) (.sequence mark info others) := by
  obtain ⟨hstays, hvalue⟩ := h
  rw [SameKept, Outline.retain, Outline.retain, if_neg hwithin, if_neg hwithin]
  exact ⟨hstays, fun hkept => by simp only [hvalue hkept]⟩

theorem SameKept.choice {query : Query} {start : Nat} {branches others : List Outline}
    (h : List.Forall₂ (SameKept query start) branches others)
    (hwithin : ¬ query.words.length ≤ start) (mark : Mark) :
    SameKept query start (.choice mark branches) (.choice mark others) := by
  rw [SameKept, Outline.retain, Outline.retain, if_neg hwithin, if_neg hwithin,
    SameKept.retainBranches h]
  exact ⟨rfl, fun _ => rfl⟩

/-- What pruning leaves of branches, given what it leaves of each of them. -/
theorem sameKept_nodes {query : Query} {start : Nat} {f g : Outline → Option Growth}
    {branches : List Outline} {grown grown' : List Growth}
    (h : ∀ branch ∈ branches, ∀ growth growth', f branch = some growth → g branch = some growth' →
      SameKept query start growth.node growth'.node)
    (hgrown : List.Forall₂ (fun branch growth => f branch = some growth) branches grown)
    (hgrown' : List.Forall₂ (fun branch growth => g branch = some growth) branches grown') :
    List.Forall₂ (SameKept query start) (grown.map Growth.node) (grown'.map Growth.node) := by
  induction hgrown generalizing grown' with
  | nil =>
      cases hgrown'
      exact .nil
  | cons hgrowth _ ih =>
      cases hgrown' with
      | cons hgrowth' hrest' =>
          exact .cons (h _ (List.mem_cons_self ..) _ _ hgrowth hgrowth')
            (ih (fun branch hmem => h branch (List.mem_cons_of_mem _ hmem)) hrest')

/-- Parts after the first are looked at only if the first one stays. -/
theorem SameKept.parts {query : Query} {start : Nat} {part other : Outline}
    {parts others : List Outline} (h : SameKept query start part other)
    (hparts : (part.retain query start).stays = true → others = parts ∨
      0 ≤ (part.retain query start).value.count ∧
        PartsSameKept query (start + (part.retain query start).value.count.toNat) parts others) :
    PartsSameKept query start (part :: parts) (other :: others) := by
  obtain ⟨hstays, hvalue⟩ := h
  rw [PartsSameKept]
  simp only [retainParts, hstays]
  cases hkept : (part.retain query start).stays with
  | false => exact ⟨rfl, by simp⟩
  | true =>
      simp only [hvalue hkept, Bool.not_true, Bool.false_eq_true, if_false]
      rcases hparts hkept with rfl | ⟨hcount, hrest, hrestValue⟩
      · exact ⟨rfl, fun _ => rfl⟩
      · simp only [if_neg (not_lt.2 hcount)]
        exact ⟨hrest, fun hstaysRest => by rw [hrestValue hstaysRest]⟩

end Outline

/-! ### Passes in the two languages -/

namespace Language.SameBut

open Outline

variable {kind : String} {language other : Language} (h : language.SameBut kind other)
include h

theorem unfold (scope : Option TypeId) (openBlock : Bool) (rule : Option RuleId) (node : Outline) :
    other.unfold scope openBlock rule node = language.unfold scope openBlock rule node := by
  obtain ⟨grammar, types, symbols, providers, settings⟩ := other
  obtain ⟨rfl, rfl, rfl, -⟩ := h
  exact unfoldWithin_names symbols providers ..

/-- A list of names counts as one word, however long it is. -/
theorem growDeferred_alike (query : Query) (scope : Option TypeId) (index : Int) (mark : Mark)
    (part : Deferred) :
    Option.Rel (fun unfolded unfolded' : Unfolded =>
      unfolded.node.Alike unfolded'.node ∧ unfolded'.grew = unfolded.grew)
      (language.growDeferred query scope index mark part)
      (other.growDeferred query scope index mark part) := by
  simp only [growDeferred, h.unfold]
  split
  · next hsome =>
      obtain ⟨reference, hreference⟩ := Option.isSome_iff_exists.1 hsome
      split
      · refine .some ⟨?_, rfl⟩
        simp only [listNames, hreference]
        refine ⟨rfl, ?_⟩
        rw [← nameList, ← nameList, Outline.count, Outline.count, maxCounts_nameList,
          maxCounts_nameList]
      · exact .some ⟨alike_refl _, rfl⟩
  · exact rel_refl (fun unfolded => ⟨alike_refl _, rfl⟩) _

theorem grow_alike (query : Query) (limit : Int) (outline : Outline) (scope : Option TypeId)
    (index : Int) :
    Option.Rel Growth.Alike (language.grow query limit scope index outline)
      (other.grow query limit scope index outline) := by
  have hsame : ∀ growth : Growth, growth.Alike growth := fun growth => ⟨alike_refl _, rfl, rfl⟩
  induction outline generalizing scope index with
  | blank | word | scope =>
      simp only [Language.grow]
      exact .some (hsame _)
  | deferred mark part =>
      simp only [Language.grow]
      split
      · exact .some (hsame _)
      · refine rel_map (h.growDeferred_alike query scope index mark part) ?_
        intro unfolded unfolded' hunfolded
        exact ⟨hunfolded.1, by simp only [hunfolded.1.count], hunfolded.2⟩
  | sequence mark info parts ih =>
      have hparts : ∀ scope index, Option.Rel PartsGrowth.Alike
          (language.growParts query limit scope index parts)
          (other.growParts query limit scope index parts) := by
        induction parts with
        | nil => exact fun _ _ => .some ⟨.nil, rfl, rfl, rfl⟩
        | cons part parts ihparts =>
            intro scope index
            simp only [Language.growParts]
            split
            · exact .some ⟨List.forall₂_same.2 fun _ _ => alike_refl _, rfl, rfl, rfl⟩
            · refine rel_bind (ih part (List.mem_cons_self ..) _ _) ?_
              intro head head' hhead
              rw [hhead.index]
              refine rel_map (ihparts (fun node hmem => ih node (List.mem_cons_of_mem _ hmem)) _ _) ?_
              intro rest rest' hrest
              exact
                { parts := .cons hhead.node hrest.parts
                  index := hrest.index
                  grew := by simp only [hhead.grew, hrest.grew]
                  complete := by simp only [hhead.node.mark, hrest.complete] }
      simp only [Language.grow]
      split
      · exact .some (hsame _)
      · refine rel_map (hparts scope index) ?_
        intro grown grown' hgrown
        rw [hgrown.complete]
        exact ⟨.closeSequence hgrown.parts .., hgrown.index, hgrown.grew⟩
  | choice mark branches ih =>
      have hbranches : Option.Rel (List.Forall₂ Growth.Alike)
          (language.growBranches query limit scope index branches)
          (other.growBranches query limit scope index branches) := by
        induction branches with
        | nil => exact .some .nil
        | cons branch branches ihbranches =>
            simp only [Language.growBranches]
            refine rel_bind (ih branch (List.mem_cons_self ..) _ _) ?_
            intro head head' hhead
            refine rel_map (ihbranches fun node hmem => ih node (List.mem_cons_of_mem _ hmem)) ?_
            intro rest rest' hrest
            exact .cons hhead hrest
      simp only [Language.grow]
      split
      · exact .some (hsame _)
      · refine rel_map hbranches ?_
        intro grown grown' hgrown
        have hindex : grown'.map Growth.index = grown.map Growth.index := by
          clear hbranches
          induction hgrown with
          | nil => rfl
          | cons hgrowth _ ihgrown => rw [List.map_cons, List.map_cons, hgrowth.index, ihgrown]
        have hgrew : grown'.any Growth.grew = grown.any Growth.grew := by
          clear hbranches hindex
          induction hgrown with
          | nil => rfl
          | cons hgrowth _ ihgrown => rw [List.any_cons, List.any_cons, hgrowth.grew, ihgrown]
        refine ⟨.closeChoice (List.forall₂_map_right_iff.2 <| List.forall₂_map_left_iff.2 <|
          hgrown.imp fun _ _ hgrowth => hgrowth.node) mark, ?_, hgrew⟩
        simp only [hindex]

/-! ### Away from the active word -/

section Far

variable {root : RuleId} {query : Query} {limit : Nat}
  (hg : language.grammar.unreferenced.PositionDetermined root) (hlimit : query.active < limit)
include hg hlimit

omit h in
/-- From a place that is unknown or after the active word, a pass goes on to such a place. -/
theorem far_of_far {part plain : Outline} (hreads : part.ReadsAs language.grammar plain)
    (hreg : plain.Regular language.grammar.unreferenced root)
    (huniform : plain.Uniform language.grammar.unreferenced) {scope : Option TypeId} {index : Int}
    (hfar : index < 0 ∨ query.active < index) {head : Growth}
    (hhead : language.grow query limit scope index part = some head) :
    head.index < 0 ∨ query.active < head.index := by
  obtain ⟨plain', hgrows⟩ := growsTo_of_grow hg hreads hreg hhead
  by_cases hneg : head.index < 0
  · exact .inl hneg
  · by_cases hlt : head.index < limit
    · obtain ⟨hindex, -, hends⟩ := hgrows.ends huniform (not_lt.1 hneg) hlt
      omega
    · omega

omit h in
/-- Parts away from the active word, given that each of them is grown alike. -/
theorem growParts_eq {parts plains : List Outline}
    (hreads : List.Forall₂ (ReadsAs language.grammar) parts plains)
    (hreg : RegularParts language.grammar.unreferenced root plains)
    (ih : ∀ part ∈ parts, part.Readable language.grammar root → ∀ scope (index : Int),
      index < 0 ∨ query.active < index →
        other.grow query limit scope index part = language.grow query limit scope index part)
    (scope : Option TypeId) {index : Int} (hfar : index < 0 ∨ query.active < index) :
    other.growParts query limit scope index parts =
      language.growParts query limit scope index parts := by
  induction hreads generalizing scope index with
  | nil => rfl
  | @cons part plain parts plains hpart hparts ihparts =>
      obtain ⟨hregPart, huniform, hregParts⟩ := hreg
      rw [Language.growParts, Language.growParts,
        ih part (List.mem_cons_self ..) ⟨plain, hpart, hregPart⟩ _ _ hfar]
      split
      · rfl
      · cases hhead : language.grow query limit (part.scopeAt scope) index part with
        | none => rfl
        | some head =>
            rw [Option.bind_some, Option.bind_some]
            cases hparts with
            | nil => rfl
            | cons hnext hothers =>
                rw [ihparts hregParts (fun node hmem => ih node (List.mem_cons_of_mem _ hmem)) _
                  (far_of_far hg hlimit hpart hregPart (huniform (by simp)) hfar hhead)]

/-- Away from the active word no names are listed. -/
theorem grow_eq {outline : Outline} (hreadable : outline.Readable language.grammar root)
    (scope : Option TypeId) {index : Int} (hfar : index < 0 ∨ query.active < index) :
    other.grow query limit scope index outline = language.grow query limit scope index outline := by
  induction outline generalizing scope index with
  | blank | word | scope => rfl
  | deferred mark part =>
      have hlists : query.listsNamesAt index = false := by
        have hne : index ≠ query.active := by omega
        simp [Query.listsNamesAt, hne]
      simp only [Language.grow, growDeferred, hlists, h.unfold]
      rfl
  | sequence mark info parts ih =>
      obtain ⟨plain, hreads, hreg⟩ := hreadable
      obtain ⟨plains, rfl, hparts⟩ := readsAs_sequence_iff.1 hreads
      rw [Language.grow, Language.grow, growParts_eq hg hlimit hparts hreg.2.2.2
        (fun part hmem hpart scope index hfar => ih part hmem hpart scope hfar) scope hfar]
  | choice mark branches ih =>
      obtain ⟨plain, hreads, hreg⟩ := hreadable
      rcases readsAs_choice_iff.1 hreads with
        ⟨plains, rfl, hbranches⟩ | ⟨placeholder, names, rfl, rfl⟩
      · have hsame : other.growBranches query limit scope index branches =
            language.growBranches query limit scope index branches := by
          obtain ⟨-, -, hregBranches⟩ := hreg
          clear hreads
          induction hbranches with
          | nil => rfl
          | cons hbranch _ ihbranches =>
              rw [Language.growBranches, Language.growBranches,
                ih _ (List.mem_cons_self ..) ⟨_, hbranch, hregBranches.1⟩ scope hfar,
                ihbranches (fun node hmem => ih node (List.mem_cons_of_mem _ hmem)) hregBranches.2]
        rw [Language.grow, Language.grow, hsame]
      · cases hmark : mark.complete with
        | true => rw [Language.grow, Language.grow, if_pos hmark, if_pos hmark]
        | false => rw [grow_nameList _ _ _ _ hmark, grow_nameList _ _ _ _ hmark]

end Far

/-! ### Up to the active word -/

section Near

variable {root : RuleId} {query : Query} {limit : Nat}
  (hg : language.grammar.unreferenced.PositionDetermined root) (hlimit : query.active < limit)
include hg hlimit

omit hg hlimit in
/-- A reference of the kind is listed by a pass that comes upon it only. -/
theorem growDeferred_eq {mark : Mark} {part : Deferred} {scope : Option TypeId} {index : Int}
    (hmark : mark.complete = false)
    (hnot : language.comesUpon query limit kind scope index (.deferred mark part) = false) :
    other.growDeferred query scope index mark part =
      language.growDeferred query scope index mark part := by
  simp only [growDeferred, h.unfold]
  split
  · next hsome =>
      obtain ⟨reference, hreference⟩ := Option.isSome_iff_exists.1 hsome
      split
      · next hlists =>
          have hne : reference ≠ .name kind := by
            rintro rfl
            simp [comesUpon, hmark, hreference, hlists] at hnot
          simp only [listNames, hreference, h.candidates scope reference hne]
      · rfl
  · rfl

/-- A pass over parts that comes upon no reference of the kind leaves the same to be pruned. -/
theorem growParts_sameKept {parts plains : List Outline}
    (hreads : List.Forall₂ (ReadsAs language.grammar) parts plains)
    (hreg : RegularParts language.grammar.unreferenced root plains)
    (ih : ∀ part ∈ parts, part.Readable language.grammar root → ∀ scope (start : Nat),
      language.comesUpon query limit kind scope start part = false → ∀ growth growth',
      language.grow query limit scope start part = some growth →
      other.grow query limit scope start part = some growth' →
        SameKept query start growth.node growth'.node)
    {scope : Option TypeId} {start : Nat}
    (hnot : language.partsComeUpon query limit kind scope start parts = false)
    {grown grown' : PartsGrowth}
    (hgrown : language.growParts query limit scope start parts = some grown)
    (hgrown' : other.growParts query limit scope start parts = some grown') :
    PartsSameKept query start grown.parts grown'.parts := by
  induction hreads generalizing scope start grown grown' with
  | nil =>
      cases hgrown
      cases hgrown'
      exact ⟨rfl, fun _ => rfl⟩
  | @cons part plain parts plains hpart hparts ihparts =>
      obtain ⟨hregPart, huniform, hregParts⟩ := hreg
      by_cases hstop : (limit : Int) ≤ start
      · rw [Language.growParts, if_pos hstop] at hgrown hgrown'
        cases hgrown
        cases hgrown'
        exact ⟨rfl, fun _ => rfl⟩
      · obtain ⟨head, rest, hhead, hrest, rfl⟩ := growParts_cons_eq_some hstop hgrown
        obtain ⟨head', rest', hhead', hrest', rfl⟩ := growParts_cons_eq_some hstop hgrown'
        have hindex : head'.index = head.index := by
          have halike := h.grow_alike query limit part (part.scopeAt scope) start
          rw [hhead, hhead'] at halike
          cases halike with
          | some halike => exact halike.index
        simp only [partsComeUpon, hhead, Option.any_some, Int.toNat_natCast,
          decide_eq_true (not_le.1 hstop), decide_eq_true (Int.natCast_nonneg start), Bool.true_and,
          Bool.or_eq_false_iff] at hnot
        obtain ⟨hnotPart, hnotRest⟩ := hnot
        refine SameKept.parts (ih part (List.mem_cons_self ..) ⟨plain, hpart, hregPart⟩ _ _ hnotPart
          head head' hhead hhead') fun hstays => ?_
        rw [hstays, Bool.true_and] at hnotRest
        rw [hindex] at hrest'
        cases hparts with
        | nil =>
            cases hrest
            cases hrest'
            exact .inl rfl
        | cons hnext hothers =>
            have hunif := huniform (by simp)
            by_cases hfar : head.index < 0 ∨ query.active < head.index
            · -- nothing of the kind is listed from here on
              have hsame := growParts_eq hg hlimit (.cons hnext hothers) hregParts
                (fun node _ hnode scope index hfar => h.grow_eq hg hlimit hnode scope hfar)
                (part.scopeAt scope) hfar
              rw [hsame, hrest] at hrest'
              cases hrest'
              exact .inl rfl
            · -- the next part starts where this one ends, and pruning goes on there as well
              obtain ⟨plain', hgrows⟩ := growsTo_of_grow hg hpart hregPart hhead
              obtain ⟨-, hexp, hends⟩ := hgrows.ends hunif (by omega) (by omega)
              obtain ⟨-, hkept⟩ := (agreed_of_stays hg hgrows.readsAs hgrows.follows.regular
                (hgrows.follows.uniform hunif) hexp hstays).retain hg
              rw [hgrows.follows.extent hunif] at hkept
              rw [hends, ← Int.natCast_add] at hrest hrest' hnotRest
              refine .inr ⟨hkept.count ▸ Int.natCast_nonneg _, ?_⟩
              rw [hkept.count, Int.toNat_natCast]
              exact ihparts hregParts (fun node hmem => ih node (List.mem_cons_of_mem _ hmem))
                hnotRest hrest hrest'

omit hg hlimit in
theorem mark_eq {outline : Outline} {scope : Option TypeId} {index : Int} {growth growth' : Growth}
    (hgrowth : language.grow query limit scope index outline = some growth)
    (hgrowth' : other.grow query limit scope index outline = some growth') :
    growth'.node.mark = growth.node.mark := by
  have halike := h.grow_alike query limit outline scope index
  rw [hgrowth, hgrowth'] at halike
  cases halike with
  | some halike => exact halike.node.mark

/-- A pass that comes upon no reference of the kind leaves the same to be pruned. -/
theorem grow_sameKept (hlength : query.words.length = query.active + 1) {outline : Outline}
    (hreadable : outline.Readable language.grammar root) (scope : Option TypeId) (start : Nat)
    (hnot : language.comesUpon query limit kind scope start outline = false)
    (growth growth' : Growth)
    (hgrowth : language.grow query limit scope start outline = some growth)
    (hgrowth' : other.grow query limit scope start outline = some growth') :
    SameKept query start growth.node growth'.node := by
  -- wherever the two passes come to the same, there is nothing to show
  have hsame : ∀ {outline : Outline} {scope : Option TypeId} {start : Nat} {growth growth' : Growth},
      language.grow query limit scope start outline = some growth →
      other.grow query limit scope start outline = some growth' →
      other.grow query limit scope start outline = language.grow query limit scope start outline →
        SameKept query start growth.node growth'.node := by
    intro outline scope start growth growth' hgrowth hgrowth' heq
    rw [heq, hgrowth] at hgrowth'
    cases hgrowth'
    exact sameKept_refl ..
  induction outline generalizing scope start growth growth' with
  | blank | word | scope => exact hsame hgrowth hgrowth' rfl
  | deferred mark part =>
      have hopen : mark.complete = false := by
        obtain ⟨plain, ⟨rfl, -⟩, hreg⟩ := hreadable
        exact hreg.2.1
      refine hsame hgrowth hgrowth' ?_
      rw [Language.grow, Language.grow, h.growDeferred_eq hopen hnot]
  | sequence mark info parts ih =>
      by_cases hfar : query.active < start
      · exact hsame hgrowth hgrowth' (h.grow_eq hg hlimit hreadable scope (.inr (by omega)))
      cases hmark : mark.complete with
      | true =>
          exact hsame hgrowth hgrowth' (by rw [Language.grow, Language.grow, if_pos hmark,
            if_pos hmark])
      | false =>
          have hmarks := h.mark_eq hgrowth hgrowth'
          obtain ⟨plain, hreads, hreg⟩ := hreadable
          obtain ⟨plains, rfl, hparts⟩ := readsAs_sequence_iff.1 hreads
          obtain ⟨grown, closed, hgrown, rfl⟩ := grow_sequence_eq_some hmark hgrowth
          obtain ⟨grown', closed', hgrown', rfl⟩ := grow_sequence_eq_some hmark hgrowth'
          rw [comesUpon, hmark, Bool.not_false, Bool.true_and] at hnot
          have hkept := h.growParts_sameKept hg hlimit hparts hreg.2.2.2
            (fun part hmem hpart => ih part hmem hpart) hnot hgrown hgrown'
          obtain rfl : closed' = closed := hmarks
          exact .sequence hkept (by omega) closed' info
  | choice mark branches ih =>
      by_cases hfar : query.active < start
      · exact hsame hgrowth hgrowth' (h.grow_eq hg hlimit hreadable scope (.inr (by omega)))
      cases hmark : mark.complete with
      | true =>
          exact hsame hgrowth hgrowth' (by rw [Language.grow, Language.grow, if_pos hmark,
            if_pos hmark])
      | false =>
          have hmarks := h.mark_eq hgrowth hgrowth'
          obtain ⟨plain, hreads, hreg⟩ := hreadable
          rcases readsAs_choice_iff.1 hreads with
            ⟨plains, rfl, hbranches⟩ | ⟨placeholder, names, rfl, rfl⟩
          · obtain ⟨grown, closed, hgrown, rfl⟩ := grow_choice_eq_some hmark hgrowth
            obtain ⟨grown', closed', hgrown', rfl⟩ := grow_choice_eq_some hmark hgrowth'
            rw [comesUpon, hmark, Bool.not_false, Bool.true_and] at hnot
            have hkept : List.Forall₂ (SameKept query start) (grown.map Growth.node)
                (grown'.map Growth.node) := by
              refine sameKept_nodes ?_ hgrown hgrown'
              intro branch hmem growth growth' hgrowth hgrowth'
              obtain ⟨plain, hplain, hbranch⟩ := exists_right_of_forall₂ hbranches branch hmem
              have hnotBranch : language.comesUpon query limit kind scope start branch = false := by
                rw [Bool.eq_false_iff] at hnot ⊢
                exact fun hupon => hnot (branchesComeUpon_iff.2 ⟨branch, hmem, hupon⟩)
              exact ih branch hmem ⟨plain, hbranch, regularBranches_iff.1 hreg.2.2 plain hplain⟩
                scope start hnotBranch growth growth' hgrowth hgrowth'
            obtain rfl : closed' = closed := hmarks
            exact .choice hkept (by omega) closed'
          · exact hsame hgrowth hgrowth' (by
              rw [grow_nameList _ _ _ _ hmark, grow_nameList _ _ _ _ hmark])

/-- If no pass comes upon a reference of the kind, both runs come to the same. -/
theorem settleWithin_eq (hlength : query.words.length = query.active + 1) {scope : Option TypeId}
    {passes : Nat} {outline : Outline} (hreadable : outline.Readable language.grammar root)
    (hnot : language.comesUponWithin query scope limit kind passes outline = false) :
    other.settleWithin query scope limit passes outline =
      language.settleWithin query scope limit passes outline := by
  induction passes generalizing outline with
  | zero => rfl
  | succ passes ih =>
      rw [comesUponWithin, Bool.or_eq_false_iff] at hnot
      obtain ⟨hnotHere, hnotLater⟩ := hnot
      obtain ⟨plain, hreads, hreg⟩ := hreadable
      obtain ⟨growth, hgrowth, -⟩ := grow_growsTo query limit hg hg.priced hreads hreg scope 0
      have halike := h.grow_alike query limit outline scope 0
      rw [hgrowth] at halike
      cases hgrowth' : other.grow query limit scope 0 outline with
      | none =>
          rw [hgrowth'] at halike
          cases halike
      | some growth' =>
          rw [hgrowth'] at halike
          cases halike with
          | some halike =>
              have hpruned := (h.grow_sameKept hg hlimit hlength ⟨plain, hreads, hreg⟩ scope 0
                hnotHere growth growth' hgrowth hgrowth').prune
              rw [Language.settleWithin, Language.settleWithin, hgrowth, hgrowth', Option.bind_some,
                Option.bind_some, hpruned, halike.grew]
              cases hkept : growth.node.prune query 0 with
              | none => rfl
              | some pruned =>
                  simp only
                  split
                  · next hgrew =>
                      rw [hgrowth, Option.any_some, hkept, Option.any_some, hgrew,
                        Bool.true_and] at hnotLater
                      obtain ⟨hstays, rfl⟩ := prune_eq_some hkept
                      exact ih (readable_retain hg (readable_grow hg ⟨plain, hreads, hreg⟩ hgrowth)
                        hstays) hnotLater
                  · rfl

end Near

end Language.SameBut

/-! ### Suggestions -/

namespace Language

variable {language : Language} {root : RuleId} {request : Request}

/-- The answers in two such languages are the same if the passes come to the same. -/
theorem SameBut.suggest_eq {kind : String} {other : Language} (h : language.SameBut kind other)
    (files : FileTree)
    (hsettle : ∀ seed,
      language.seed (language.suggestQuery request) request.scope request.blocks = some seed →
      other.settleWithin (language.suggestQuery request) request.scope
          (language.suggestQuery request).words.length (language.suggestBudget request) seed =
        language.settleWithin (language.suggestQuery request) request.scope
          (language.suggestQuery request).words.length (language.suggestBudget request) seed) :
    other.suggest files request = language.suggest files request := by
  obtain ⟨grammar, types, symbols, providers, settings⟩ := other
  obtain ⟨rfl, rfl, rfl, -⟩ := h
  have hseed : ({ language with symbols, providers } : Language).seed
      (language.suggestQuery request) request.scope request.blocks =
        language.seed (language.suggestQuery request) request.scope request.blocks := by
    simp only [seed, seedBranches_names]
    rfl
  have houtcome : ({ language with symbols, providers } : Language).suggestOutcome request =
      language.suggestOutcome request :=
    (congrArg (Option.bind · _) hseed).trans (Option.bind_congr hsettle)
  simp only [suggest]
  split
  · rfl
  · exact congrArg (Option.map _) houtcome

/-- Entering a name of the kind changes the known names of the kind only. -/
theorem sameBut_addName (kind name : String) : language.SameBut kind
    { language with symbols := language.symbols.addName kind name } where
  grammar := rfl
  types := rfl
  settings := rfl
  candidates scope reference hne := by
    cases reference with
    | type path nested => cases path <;> cases nested <;> rfl
    | name asked =>
        have hasked : (kind == asked) = false := by
          rw [beq_eq_false_iff_ne]
          rintro rfl
          exact hne rfl
        simp [candidates, SymbolIndex.names, SymbolIndex.addName, hasked]

theorem comesUponWithin_choice_nil {query : Query} (hquery : query.words ≠ [])
    (scope : Option TypeId) (limit : Int) (kind : String) (passes : Nat) :
    language.comesUponWithin query scope limit kind passes (.choice {} []) = false := by
  have hlength : ¬ query.words.length ≤ 0 := by simpa using hquery
  cases passes with
  | zero => rfl
  | succ passes =>
      simp [comesUponWithin, comesUpon, branchesComeUpon, grow, growBranches, Outline.closeChoice,
        Outline.prune, Outline.retain, Outline.retainBranches, hlength]

section Referential

variable (hquery : (language.suggestQuery request).isInclude
    language.settings.includeCommands = false)
  (hg : language.grammar.Referential root) (hroot : language.grammar.root = some root)
  (hblocks : request.blocks = [])
include hquery hg hroot hblocks

theorem exists_outcome : ∃ outcome, language.suggestOutcome request = some outcome := by
  have hlength := (suggestQuery_active hquery).1
  have hwords : (language.suggestQuery request).words ≠ [] := List.ne_nil_of_length_eq_add_one hlength
  obtain ⟨outcome, houtcome⟩ := exists_settle (Grammar.referential_iff.1 hg) hroot hwords
    request.scope (language.suggestQuery request).words.length
  refine ⟨outcome, ?_⟩
  rw [suggestOutcome, hblocks]
  exact houtcome

/-- The names that a pass comes upon are offered in the outcome. -/
theorem mem_offers_of_findsNames {kind : String}
    (hfinds : language.findsNames request kind = true) {outcome : Option Outline}
    (houtcome : language.suggestOutcome request = some outcome) {name : String}
    (hname : name ∈ language.candidates request.scope (.name kind)) (hempty : name.isEmpty = false)
    (hangle : name.startsWith "<" = false) :
    ∃ outline, outcome = some outline ∧
      name ∈ (outline.offers language.grammar (language.suggestQuery request).active).texts := by
  obtain ⟨hlength, hactive⟩ := suggestQuery_active hquery
  have hplain := Grammar.referential_iff.1 hg
  obtain ⟨seed, hseed, hcases⟩ := exists_seed hplain hroot (language.suggestQuery request)
    request.scope
  rw [findsNames, suggestBudget, hblocks, hseed, Option.any_some] at hfinds
  rw [suggestOutcome, settle, hblocks, hseed, Option.bind_some] at houtcome
  rcases hcases with ⟨hreadable, -⟩ | rfl
  · obtain ⟨settled, rfl, hlists⟩ := exists_lists_of_comesUponWithin hplain hlength hactive
      hreadable hfinds houtcome
    have hoffers := hlists.mem_offers hname hempty hangle
    rw [Int.natCast_zero, Int.sub_zero] at hoffers
    exact ⟨settled, rfl, hoffers⟩
  · rw [comesUponWithin_choice_nil (List.ne_nil_of_length_eq_add_one hlength)] at hfinds
    cases hfinds

/-- Names that no pass comes upon make no difference. -/
theorem SameBut.suggest_eq_of_findsNames {kind : String}
    (hfinds : language.findsNames request kind = false) {other : Language}
    (hother : language.SameBut kind other) (files : FileTree) :
    other.suggest files request = language.suggest files request := by
  have hlength := (suggestQuery_active hquery).1
  have hwords : (language.suggestQuery request).words ≠ [] := List.ne_nil_of_length_eq_add_one hlength
  have hplain := Grammar.referential_iff.1 hg
  obtain ⟨seed, hseed, hcases⟩ := exists_seed hplain hroot (language.suggestQuery request)
    request.scope
  rw [findsNames, hblocks, hseed, Option.any_some] at hfinds
  refine hother.suggest_eq files ?_
  intro seed' hseed'
  rw [hblocks, hseed, Option.some.injEq] at hseed'
  subst hseed'
  rcases hcases with ⟨hreadable, -⟩ | rfl
  · exact hother.settleWithin_eq hplain (by omega) hlength hreadable hfinds
  · -- everything was ruled out before the first pass
    cases language.suggestBudget request with
    | zero => rfl
    | succ passes =>
        rw [settleWithin_choice_nil hwords _ _ rfl, settleWithin_choice_nil hwords _ _ rfl]

/-- If some pass comes upon a reference to known names of the kind at the cursor, all these names are
suggested, but for the empty one and those that start with `<`.  Otherwise they make no difference: the
answer is the same whatever names of the kind are known.  A pass does come upon the reference if the
words before the cursor lead to a name of the kind and no part before the name is nested too deep. -/
theorem suggest_findsNames (kind : String) (files : FileTree) :
    ∃ answer, language.suggest files request = some answer ∧
      (language.findsNames request kind = true →
        ∀ name ∈ language.candidates request.scope (.name kind), name.isEmpty = false →
          name.startsWith "<" = false → name ∈ answer.suggestions) ∧
      (language.findsNames request kind = false → ∀ other, language.SameBut kind other →
        other.suggest files request = some answer) ∧
      ∀ n lead tail, language.grammar.DerivesNameIn kind n root lead tail →
        lead.length = (language.suggestQuery request).active →
        (language.suggestQuery request).Leads lead → language.findsNames request kind = true := by
  obtain ⟨outcome, houtcome⟩ := exists_outcome hquery hg hroot hblocks
  obtain ⟨answer, hanswer, hmem⟩ := exists_suggest_of_outcome files hquery houtcome
  refine ⟨answer, hanswer, ?_, ?_, ?_⟩
  · intro hfinds name hname hempty hangle
    exact (hmem name).2
      (mem_offers_of_findsNames hquery hg hroot hblocks hfinds houtcome hname hempty hangle)
  · intro hfinds other hother
    rw [← hanswer]
    exact hother.suggest_eq_of_findsNames hquery hg hroot hblocks hfinds files
  · intro n lead tail hname hplace hleads
    exact findsNames_of_derivesNameIn hquery hg hroot hblocks hname hplace hleads

end Referential

end Language

/-! ### Names that are listed and names that are not -/

/-- The words typed before the cursor lead to themselves. -/
theorem Query.leads_map_literal (typed : List String) (mode : Mode) :
    (⟨typed ++ [""], typed.length, mode⟩ : Query).Leads (typed.map Word.literal) := by
  intro i word hi hword
  rw [List.getElem?_map] at hword
  obtain ⟨text, htext, rfl⟩ := Option.map_eq_some_iff.1 hword
  right
  rwa [List.getElem?_append_left hi]

namespace Language

/-- A language with the one command `x a b c` and a side.  The rule for `a b c` nests a rule for
`b c`. -/
def deepLanguage : Language where
  grammar :=
    { rules := #[⟨.leaf (.literal "x"), none⟩, ⟨.leaf (.literal "a"), none⟩,
        ⟨.leaf (.literal "b"), none⟩, ⟨.leaf (.literal "c"), none⟩,
        ⟨.sequence [⟨2⟩, ⟨3⟩] false false, none⟩, ⟨.sequence [⟨1⟩, ⟨4⟩] false false, none⟩,
        ⟨.freeWord { kind := "side", isKnownName := true }, none⟩,
        ⟨.sequence [⟨0⟩, ⟨5⟩, ⟨6⟩] false false, none⟩]
      root := some ⟨7⟩ }
  symbols := { nameEntries := [("side", "blue"), ("side", "red")] }

/-- The request behind `x a b c` and a blank. -/
def deepRequest : Request := .atEnd "x a b c " [] none

theorem referential_deepLanguage : deepLanguage.grammar.Referential ⟨7⟩ :=
  Grammar.referential_iff.2
    (Grammar.positionDetermined_of_isLayered (by decide +kernel) (by decide +kernel))

theorem suggestQuery_deepRequest :
    deepLanguage.suggestQuery deepRequest = ⟨["x", "a", "b", "c", ""], 4, .suggest⟩ := by
  decide +kernel

theorem isInclude_deepRequest :
    (deepLanguage.suggestQuery deepRequest).isInclude
      deepLanguage.settings.includeCommands = false := by decide +kernel

/-- The same language without the inner nesting: the command is `x a b` and a side. -/
def shallowLanguage : Language where
  grammar :=
    { rules := #[⟨.leaf (.literal "x"), none⟩, ⟨.leaf (.literal "a"), none⟩,
        ⟨.leaf (.literal "b"), none⟩, ⟨.sequence [⟨1⟩, ⟨2⟩] false false, none⟩,
        ⟨.freeWord { kind := "side", isKnownName := true }, none⟩,
        ⟨.sequence [⟨0⟩, ⟨3⟩, ⟨4⟩] false false, none⟩]
      root := some ⟨5⟩ }
  symbols := { nameEntries := [("side", "blue"), ("side", "red")] }

theorem suggestQuery_shallowLanguage :
    shallowLanguage.suggestQuery (.atEnd "x a b " [] none) = ⟨["x", "a", "b", ""], 3, .suggest⟩ := by
  decide +kernel

/-- Before the side in `x a b` nothing is nested deeper than the words `a b`. -/
theorem derivesNameIn_shallowLanguage :
    shallowLanguage.grammar.DerivesNameIn "side" 2 ⟨5⟩ (["x", "a", "b"].map Word.literal) [] := by
  have hx : shallowLanguage.grammar.kind? ⟨0⟩ = some (.leaf (.literal "x")) := rfl
  have ha : shallowLanguage.grammar.kind? ⟨1⟩ = some (.leaf (.literal "a")) := rfl
  have hb : shallowLanguage.grammar.kind? ⟨2⟩ = some (.leaf (.literal "b")) := rfl
  have hab : shallowLanguage.grammar.kind? ⟨3⟩ = some (.sequence [⟨1⟩, ⟨2⟩] false false) := rfl
  have hside : shallowLanguage.grammar.kind? ⟨4⟩ =
      some (.freeWord { kind := "side", isKnownName := true }) := rfl
  have hroot : shallowLanguage.grammar.kind? ⟨5⟩ =
      some (.sequence (⟨0⟩ :: ([⟨3⟩] ++ ⟨4⟩ :: [])) false false) := rfl
  have hopening : shallowLanguage.grammar.Derives ⟨0⟩ [.literal "x"] := .leaf hx
  have hmiddle : shallowLanguage.grammar.DerivesAll [⟨3⟩] (["a", "b"].map Word.literal) :=
    .cons (.sequence hab (.cons (.leaf ha) (.cons (.leaf hb) .nil))) .nil
  have hnests : ∀ other ∈ [(⟨3⟩ : RuleId)], shallowLanguage.grammar.NestsWithin 1 other := by
    intro other hother
    obtain rfl := List.mem_singleton.1 hother
    refine .sequence hab (.leaf ha) (fun _ => Nat.one_pos) fun child hchild => ?_
    obtain rfl := List.mem_singleton.1 hchild
    exact .leaf hb
  have hname : shallowLanguage.grammar.DerivesNameIn "side" 1 ⟨4⟩ [] [] :=
    .free hside ⟨rfl, rfl, rfl, by decide⟩
  exact .later hroot (.leaf hx) hopening hnests hmiddle hname .nil

/-- Behind `x a b` the side `blue` is suggested.  Behind `x a b c` the sides make no difference, and
the answer stays the same when `green` is entered. -/
theorem suggest_findsNames_deepLanguage :
    (∃ answer, shallowLanguage.suggest {} (.atEnd "x a b " [] none) = some answer ∧
      "blue" ∈ answer.suggestions) ∧
    ∃ answer, deepLanguage.suggest {} deepRequest = some answer ∧
      ({ deepLanguage with symbols := deepLanguage.symbols.addName "side" "green" } :
        Language).suggest {} deepRequest = some answer := by
  have hshallow : shallowLanguage.grammar.Referential ⟨5⟩ :=
    Grammar.referential_iff.2
      (Grammar.positionDetermined_of_isLayered (by decide +kernel) (by decide +kernel))
  have hblue : "blue" ∈ shallowLanguage.candidates none (.name "side") :=
    mem_sortedUnique.2 (by simp [shallowLanguage])
  have hinclude : (shallowLanguage.suggestQuery (.atEnd "x a b " [] none)).isInclude
      shallowLanguage.settings.includeCommands = false := by decide +kernel
  obtain ⟨answer, hanswer, hlisted, -, hfinds⟩ :=
    suggest_findsNames hinclude hshallow rfl rfl "side" {}
  obtain ⟨answer', hanswer', -, hfrozen, -⟩ :=
    suggest_findsNames isInclude_deepRequest referential_deepLanguage rfl rfl "side" {}
  refine ⟨⟨answer, hanswer, ?_⟩, answer', hanswer', ?_⟩
  · rw [suggestQuery_shallowLanguage] at hfinds
    exact hlisted (hfinds 2 _ [] derivesNameIn_shallowLanguage rfl
      (Query.leads_map_literal ["x", "a", "b"] .suggest)) "blue" hblue (by decide +kernel)
      (by decide +kernel)
  · exact hfrozen (by decide +kernel) _ (sameBut_addName "side" "green")

theorem derivesName_deepLanguage :
    deepLanguage.grammar.DerivesName "side" ⟨7⟩ (["x", "a", "b", "c"].map Word.literal) [] := by
  have hleaf : ∀ id text, deepLanguage.grammar.kind? id = some (.leaf (.literal text)) →
      deepLanguage.grammar.Derives id [.literal text] := fun _ _ hkind => .leaf hkind
  have hbc : deepLanguage.grammar.Derives ⟨4⟩ (["b", "c"].map Word.literal) :=
    .sequence rfl (.cons (hleaf ⟨2⟩ "b" rfl) (.cons (hleaf ⟨3⟩ "c" rfl) .nil))
  have habc : deepLanguage.grammar.Derives ⟨5⟩ (["a", "b", "c"].map Word.literal) :=
    .sequence rfl (.cons (hleaf ⟨1⟩ "a" rfl) (.cons hbc .nil))
  have hbefore : deepLanguage.grammar.DerivesAll [⟨0⟩, ⟨5⟩] (["x", "a", "b", "c"].map Word.literal) :=
    .cons (hleaf ⟨0⟩ "x" rfl) (.cons habc .nil)
  have hfree : deepLanguage.grammar.kind? ⟨6⟩ =
      some (.freeWord { kind := "side", isKnownName := true }) := rfl
  have hroot : deepLanguage.grammar.kind? ⟨7⟩ =
      some (.sequence ([⟨0⟩, ⟨5⟩] ++ ⟨6⟩ :: []) false false) := rfl
  exact .sequence hroot hbefore (.free hfree ⟨rfl, rfl, rfl, by decide⟩) .nil

/-- Names need not be suggested where a command has one: behind `x a b c` comes a side, and `blue` is
one, but only the placeholder is suggested. -/
theorem not_suggest_names :
    deepLanguage.grammar.Referential ⟨7⟩ ∧ deepLanguage.grammar.root = some ⟨7⟩ ∧
      deepRequest.blocks = [] ∧
      (deepLanguage.suggestQuery deepRequest).isInclude
        deepLanguage.settings.includeCommands = false ∧
      (∃ lead tail, deepLanguage.grammar.DerivesName "side" ⟨7⟩ lead tail ∧
        lead.length = (deepLanguage.suggestQuery deepRequest).active ∧
        (deepLanguage.suggestQuery deepRequest).Leads lead) ∧
      "blue" ∈ deepLanguage.symbols.names "side" ∧
      ∃ answer, deepLanguage.suggest {} deepRequest = some answer ∧
        "blue" ∉ answer.suggestions := by
  have htexts : (deepLanguage.suggestOutcome deepRequest).map (Option.map fun outline =>
      (outline.offers deepLanguage.grammar 4).texts) = some (some ["<side>"]) := by decide +kernel
  obtain ⟨outcome, houtcome, htexts⟩ := Option.map_eq_some_iff.1 htexts
  obtain ⟨outline, rfl, hoffers⟩ := Option.map_eq_some_iff.1 htexts
  obtain ⟨answer, hanswer, hmem⟩ := exists_suggest_of_outcome {} isInclude_deepRequest houtcome
  refine ⟨referential_deepLanguage, rfl, rfl, isInclude_deepRequest, ?_, ?_, answer, hanswer, ?_⟩
  · rw [suggestQuery_deepRequest]
    exact ⟨_, [], derivesName_deepLanguage, rfl,
      Query.leads_map_literal ["x", "a", "b", "c"] .suggest⟩
  · exact mem_sortedUnique.2 (by simp [deepLanguage])
  · intro hblue
    obtain ⟨settled, hsettled, hblue⟩ := (hmem "blue").1 hblue
    cases hsettled
    rw [suggestQuery_deepRequest] at hblue
    rw [show ((4 : Nat) : Int) = 4 from rfl, hoffers] at hblue
    simp at hblue

end Language

end Typeahead
