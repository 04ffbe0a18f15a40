/-
The list of names at the cursor.

A reference to a known name is listed by the pass that comes upon it while it reads its place as that
of the active word.  If the parts before it stay when the outcome of that pass is pruned, then the list
stays for good: those parts are expanded and agree with the typed words, so no later pass unfolds them
and no later pruning drops them.  In the end every name of the list is offered.

Main definitions:

* `Typeahead.Language.comesUpon` — a pass lists the names of a kind, in a part that stays;
* `Typeahead.Language.findsNames` — some pass of a request does;
* `Typeahead.Outline.Fits`, `Typeahead.Outline.Agreed` — parts that agree with the typed words, and
  those of them that are expanded;
* `Typeahead.Outline.Lists` — a list of names stands at the active word.

Main results:

* `Typeahead.Language.lists_of_comesUpon` — what the pass leaves;
* `Typeahead.Language.lists_grow`, `Typeahead.Outline.Lists.retain` — a list stays;
* `Typeahead.Outline.Lists.mem_offers` — all its names are offered;
* `Typeahead.Language.exists_lists_of_comesUponWithin` — what the whole run leaves.
-/

import Typeahead.Proofs.PlainGrowth

set_option relaxedAutoImplicit false
set_option autoImplicit false

namespace Typeahead

namespace Language

/-! ### Coming upon a reference -/

mutual

/-- Whether a pass over a node that starts at place `index` comes upon a reference to a known name of
the kind where it takes the place for that of the active word, behind parts that stay when the outcome
of the pass is pruned. -/
def comesUpon (language : Language) (query : Query) (limit : Int) (kind : String) :
    Option TypeId → Int → Outline → Bool
  | _, index, .deferred mark part =>
      !mark.complete && part.reference == some (.name kind) && query.listsNamesAt index
  | scope, index, .sequence mark _ parts =>
      !mark.complete && partsComeUpon language query limit kind scope index parts
  | scope, index, .choice mark branches =>
      !mark.complete && branchesComeUpon language query limit kind scope index branches
  | _, _, .blank _ | _, _, .word _ _ | _, _, .scope _ _ => false

/-- The same for the parts of a sequence, as long as the place of the next one is known. -/
def partsComeUpon (language : Language) (query : Query) (limit : Int) (kind : String) :
    Option TypeId → Int → List Outline → Bool
  | _, _, [] => false
  | scope, index, part :: parts =>
      decide (0 ≤ index) && decide (index < limit) &&
        (comesUpon language query limit kind (part.scopeAt scope) index part ||
          (language.grow query limit (part.scopeAt scope) index part).any fun head =>
            (head.node.retain query index.toNat).stays &&
              partsComeUpon language query limit kind (part.scopeAt scope) head.index parts)

/-- The same for the branches of a choice. -/
def branchesComeUpon (language : Language) (query : Query) (limit : Int) (kind : String) :
    Option TypeId → Int → List Outline → Bool
  | _, _, [] => false
  | scope, index, branch :: branches =>
      comesUpon language query limit kind scope index branch ||
        branchesComeUpon language query limit kind scope index branches

end

/-- Whether one of the passes over an outline comes upon a reference to a known name of the kind at
the active word. -/
def comesUponWithin (language : Language) (query : Query) (scope : Option TypeId) (limit : Int)
    (kind : String) : Nat → Outline → Bool
  | 0, _ => false
  | passes + 1, outline =>
      language.comesUpon query limit kind scope 0 outline ||
        (language.grow query limit scope 0 outline).any fun growth =>
          (growth.node.prune query 0).any fun pruned =>
            growth.grew && comesUponWithin language query scope limit kind passes pruned

/-- Whether a request for suggestions comes upon a reference to a known name of the kind at the
cursor. -/
def findsNames (language : Language) (request : Request) (kind : String) : Bool :=
  let query := language.suggestQuery request
  (language.seed query request.scope request.blocks).any
    (language.comesUponWithin query request.scope query.words.length kind
      (language.suggestBudget request))

theorem branchesComeUpon_iff {language : Language} {query : Query} {limit : Int} {kind : String}
    {scope : Option TypeId} {index : Int} {branches : List Outline} :
    language.branchesComeUpon query limit kind scope index branches = true ↔
      ∃ branch ∈ branches, language.comesUpon query limit kind scope index branch = true := by
  induction branches with
  | nil => simp [branchesComeUpon]
  | cons branch branches ih => simp [branchesComeUpon, ih]

end Language

/-! ### Lists of names -/

namespace Outline

/-- The part has `n` words, and something it yields agrees with the query from `start` on. -/
def Fits (grammar : Grammar) (root : RuleId) (query : Query) (start n : Nat) (part : Outline) :
    Prop :=
  ∃ plain words, part.ReadsAs grammar plain ∧ plain.Regular grammar.unreferenced root ∧
    plain.Uniform grammar.unreferenced ∧ plain.Yields grammar.unreferenced words ∧
    words.length = n ∧ query.Agrees start words

/-- The part fits and is expanded. -/
def Agreed (grammar : Grammar) (root : RuleId) (query : Query) (start n : Nat) (part : Outline) :
    Prop :=
  part.Fits grammar root query start n ∧ part.isExpanded = true

mutual

/-- In the outline, which starts at `start`, the names are listed at the active word, behind parts that
agree with the query. -/
def Lists (grammar : Grammar) (root : RuleId) (query : Query) (names : List String) :
    Nat → Outline → Prop
  | start, .sequence _ _ parts => PartsList grammar root query names start parts
  | start, .choice _ branches =>
      (start = query.active ∧ ∃ placeholder, branches = nameList placeholder names) ∨
        BranchesList grammar root query names start branches
  | _, .blank _ | _, .word _ _ | _, .deferred _ _ | _, .scope _ _ => False

/-- The same for the parts of a sequence. -/
def PartsList (grammar : Grammar) (root : RuleId) (query : Query) (names : List String) :
    Nat → List Outline → Prop
  | _, [] => False
  | start, part :: parts =>
      Lists grammar root query names start part ∨
        ∃ n, part.Agreed grammar root query start n ∧
          PartsList grammar root query names (start + n) parts

/-- The same for the branches of a choice. -/
def BranchesList (grammar : Grammar) (root : RuleId) (query : Query) (names : List String) :
    Nat → List Outline → Prop
  | _, [] => False
  | start, branch :: branches =>
      Lists grammar root query names start branch ∨
        BranchesList grammar root query names start branches

end

variable {grammar : Grammar} {root : RuleId} {query : Query} {names : List String}

theorem branchesList_iff {start : Nat} {branches : List Outline} :
    BranchesList grammar root query names start branches ↔
      ∃ branch ∈ branches, branch.Lists grammar root query names start := by
  induction branches with
  | nil => simp [BranchesList]
  | cons branch branches ih => simp [BranchesList, ih]

theorem Fits.count_eq {start n : Nat} {part : Outline} (h : part.Fits grammar root query start n)
    (hcount : 0 ≤ part.count) : part.count = n := by
  obtain ⟨plain, words, hreads, hreg, huniform, hyields, rfl, -⟩ := h
  rw [← hreads.count] at hcount ⊢
  rw [huniform.count_eq_of_nonneg hreg hcount, huniform.length_eq hyields]

theorem Agreed.count {start n : Nat} {part : Outline} (h : part.Agreed grammar root query start n) :
    part.count = n := by
  obtain ⟨⟨plain, words, hreads, hreg, huniform, hyields, rfl, -⟩, hexp⟩ := h
  rw [← hreads.count, huniform.count_eq hreg (hreads.isExpanded.trans hexp),
    huniform.length_eq hyields]

/-- A list stands at or after the place where the outline starts. -/
theorem Lists.le_active {start : Nat} {outline : Outline}
    (h : outline.Lists grammar root query names start) : start ≤ query.active := by
  induction outline generalizing start with
  | blank | word | deferred | scope => exact h.elim
  | sequence mark info parts ih =>
      rw [Lists] at h
      induction parts generalizing start with
      | nil => exact h.elim
      | cons part parts ihparts =>
          rcases h with h | ⟨n, -, h⟩
          · exact ih part (List.mem_cons_self ..) h
          · have := ihparts (fun other hother => ih other (List.mem_cons_of_mem _ hother)) h
            omega
  | choice mark branches ih =>
      rcases h with ⟨rfl, -⟩ | h
      · exact le_rfl
      · obtain ⟨branch, hmem, h⟩ := branchesList_iff.1 h
        exact ih branch hmem h

/-! ### Names are offered -/

theorem mem_offers_nameList {placeholder name : String} (hname : name ∈ names)
    (hempty : name.isEmpty = false) (hangle : name.startsWith "<" = false) :
    name ∈ (branchOffers grammar 0 (nameList placeholder names)).texts := by
  refine mem_branchOffers.2 ⟨.ofWord (.literal name), ?_, ?_⟩
  · exact List.mem_cons_of_mem _ (List.mem_map.2 ⟨name, hname, rfl⟩)
  · simp [ofWord, fill, offers, pastQuery, Word.literal, hempty, Word.offered, Word.rendered, hangle,
      mark, Mark.settle, Grammar.closing?]

/-- All names of the list are offered, but for the empty one and those that read as patterns. -/
theorem Lists.mem_offers {start : Nat} {outline : Outline}
    (h : outline.Lists grammar root query names start) {name : String} (hname : name ∈ names)
    (hempty : name.isEmpty = false) (hangle : name.startsWith "<" = false) :
    name ∈ (outline.offers grammar (query.active - start)).texts := by
  have hle := h.le_active
  have hwithin : ((query.active : Int) - start) ≠ pastQuery := by
    simp only [pastQuery]
    omega
  induction outline generalizing start with
  | blank | word | deferred | scope => exact h.elim
  | sequence mark info parts ih =>
      rw [offers, if_neg hwithin]
      rw [Lists] at h
      clear hwithin
      induction parts generalizing start with
      | nil => exact h.elim
      | cons part parts ihparts =>
          rw [partOffers, Offers.append, List.mem_append]
          rcases h with h | ⟨n, hagreed, h⟩
          · exact .inl (ih part (List.mem_cons_self ..) h hle (by simp only [pastQuery]; omega))
          · right
            have hlists : (Outline.sequence mark info parts).Lists grammar root query names
                (start + n) := h
            have hrest := ihparts (fun other hother => ih other (List.mem_cons_of_mem _ hother)) h
              hlists.le_active
            rw [hagreed.count]
            rwa [Int.natCast_add, ← Int.sub_sub] at hrest
  | choice mark branches ih =>
      rw [offers, if_neg hwithin]
      rcases h with ⟨rfl, placeholder, rfl⟩ | h
      · rw [Int.sub_self]
        exact mem_offers_nameList hname hempty hangle
      · obtain ⟨branch, hmem, h⟩ := branchesList_iff.1 h
        exact mem_branchOffers.2 ⟨branch, hmem, ih branch hmem h hle hwithin⟩

/-! ### Lists stay -/

/-- The entries of a list of names are words, with no list inside. -/
theorem not_lists_of_mem_nameList {start : Nat} {placeholder : String} {others : List String}
    {branch : Outline} (hmem : branch ∈ nameList placeholder others) :
    ¬ branch.Lists grammar root query names start := by
  intro h
  rcases List.mem_cons.1 hmem with rfl | hmem
  · exact h
  · obtain ⟨name, -, rfl⟩ := List.mem_map.1 hmem
    exact h

/-- A uniform part with a list in it ends after the active word. -/
theorem Lists.active_lt {start : Nat} {outline plain : Outline}
    (h : outline.Lists grammar root query names start) (hreads : outline.ReadsAs grammar plain)
    (hreg : plain.Regular grammar.unreferenced root) (huniform : plain.Uniform grammar.unreferenced) :
    query.active < start + plain.extent grammar.unreferenced := by
  induction outline generalizing start plain with
  | blank | word | deferred | scope => exact h.elim
  | sequence mark info parts ih =>
      obtain ⟨plains, rfl, hparts⟩ := readsAs_sequence_iff.1 hreads
      obtain ⟨-, -, -, hregParts⟩ := hreg
      obtain ⟨-, huniformParts⟩ := huniform
      rw [Lists] at h
      rw [Outline.extent]
      clear hreads
      induction hparts generalizing start with
      | nil => exact h.elim
      | cons hpart _ ihparts =>
          rw [extentAll]
          rcases h with h | ⟨n, hagreed, h⟩
          · have := ih _ (List.mem_cons_self ..) h hpart hregParts.1 huniformParts.1
            omega
          · have hrest := ihparts (fun other hother => ih other (List.mem_cons_of_mem _ hother))
              h hregParts.2.2 huniformParts.2
            -- the part is counted, so every reading of it has the same length
            have hcount : 0 ≤ Outline.count _ := hagreed.count ▸ Int.natCast_nonneg n
            have hextent := huniformParts.1.count_eq_of_nonneg hregParts.1 (hpart.count ▸ hcount)
            rw [hpart.count, hagreed.count] at hextent
            omega
  | choice mark branches ih =>
      rcases readsAs_choice_iff.1 hreads with
        ⟨plains, rfl, hbranches⟩ | ⟨placeholder, names, rfl, rfl⟩
      · obtain ⟨-, huniformAny⟩ := huniform
        rcases h with ⟨rfl, placeholder, rfl⟩ | h
        · -- the first branch is a word
          cases hbranches with
          | cons hfirst _ =>
              obtain rfl := hfirst
              simp [Outline.extent, extentAny]
        · obtain ⟨branch, hmem, h⟩ := branchesList_iff.1 h
          obtain ⟨plain, hplain, hbranch⟩ := exists_right_of_forall₂ hbranches branch hmem
          obtain ⟨hunif, hextent⟩ := uniformAny_iff.1 huniformAny plain hplain
          have := ih branch hmem h hbranch (regularBranches_iff.1 hreg.2.2 plain hplain) hunif
          rwa [hextent] at this
      · rcases h with ⟨rfl, -⟩ | h
        · simp [Outline.extent]
        · obtain ⟨branch, hmem, h⟩ := branchesList_iff.1 h
          exact absurd h (not_lists_of_mem_nameList hmem)

/-- Beyond the typed words nothing is ruled out. -/
theorem retain_stays_of_le {start : Nat} (h : query.words.length ≤ start) (outline : Outline) :
    (outline.retain query start).stays = true := by
  cases outline with
  | blank mark => simpa [Outline.retain] using h
  | word mark w =>
      rw [Outline.retain, Query.accepts, List.getElem?_eq_none h]
      simp
  | deferred | scope => rfl
  | sequence mark info parts => rw [Outline.retain, if_pos h]
  | choice mark branches => rw [Outline.retain, if_pos h]

theorem retainParts_stays_of_le {start : Nat} (h : query.words.length ≤ start)
    (parts : List Outline) : (retainParts query start parts).stays = true := by
  induction parts generalizing start with
  | nil => rfl
  | cons part parts ih =>
      simp only [retainParts, retain_stays_of_le h part, Bool.not_true, Bool.false_eq_true, if_false]
      split
      · rfl
      · exact ih (by omega)

section PositionDetermined

variable (hg : grammar.unreferenced.PositionDetermined root)
include hg

theorem Fits.retain {start n : Nat} {part : Outline} (h : part.Fits grammar root query start n) :
    (part.retain query start).stays = true ∧
      (part.retain query start).value.Fits grammar root query start n ∧
      (part.isExpanded = true → (part.retain query start).value.isExpanded = true) := by
  obtain ⟨plain, words, hreads, hreg, huniform, hyields, hlength, hagrees⟩ := h
  obtain ⟨hsame, hvalue⟩ := hreads.retain query start
  have hprunes := retain_prunes grammar.unreferenced.price query hg hreg start
  obtain ⟨hstays, hkept⟩ := hprunes.keeps words hyields hagrees
  have hfollows := hprunes.follows hstays
  refine ⟨hsame.symm.trans hstays, ⟨_, words, hvalue, hfollows.regular, hfollows.uniform huniform,
    hkept, hlength, hagrees⟩, ?_⟩
  intro hexp
  exact hvalue.isExpanded.symm.trans (hfollows.expanded (hreads.isExpanded.trans hexp))

theorem Agreed.retain {start n : Nat} {part : Outline}
    (h : part.Agreed grammar root query start n) :
    (part.retain query start).stays = true ∧
      (part.retain query start).value.Agreed grammar root query start n := by
  obtain ⟨hfits, hexp⟩ := h
  obtain ⟨hstays, hkept, hkeptExp⟩ := hfits.retain hg
  exact ⟨hstays, hkept, hkeptExp hexp⟩

variable (hlength : query.words.length = query.active + 1)
include hlength

/-- Pruning the parts of a sequence with a list in it, given what it does to each of them. -/
theorem PartsList.retain {start : Nat} {parts plains : List Outline}
    (h : PartsList grammar root query names start parts)
    (hreads : List.Forall₂ (ReadsAs grammar) parts plains)
    (hreg : RegularParts grammar.unreferenced root plains)
    (ih : ∀ part ∈ parts, ∀ start, part.Lists grammar root query names start →
      part.Readable grammar root → (part.retain query start).stays = true ∧
        (part.retain query start).value.Lists grammar root query names start) :
    (retainParts query start parts).stays = true ∧
      PartsList grammar root query names start (retainParts query start parts).value := by
  induction hreads generalizing start with
  | nil => exact h.elim
  | @cons part plain parts plains hpart hparts ihparts =>
      obtain ⟨hregPart, huniform, hregParts⟩ := hreg
      rcases h with h | ⟨n, hagreed, h⟩
      · obtain ⟨hstays, hlists⟩ := ih part (List.mem_cons_self ..) start h ⟨plain, hpart, hregPart⟩
        simp only [retainParts, hstays, Bool.not_true, Bool.false_eq_true, if_false]
        split
        · exact ⟨rfl, .inl hlists⟩
        · next hcount =>
            refine ⟨?_, .inl hlists⟩
            cases hparts with
            | nil => rfl
            | cons hnext hrest =>
                -- the part ends after the active word, and nothing is asked beyond that
                have hunif := huniform (by simp)
                obtain ⟨hsame, hvalue⟩ := hpart.retain query start
                have hprunes := retain_prunes grammar.unreferenced.price query hg hregPart start
                have htoNat := (hprunes.follows (hsame.trans hstays)).count_toNat hunif
                  (hvalue.count ▸ not_lt.1 hcount)
                have hlt := h.active_lt hpart hregPart hunif
                rw [hvalue.count] at htoNat
                exact retainParts_stays_of_le (by omega) _
      · obtain ⟨hstays, hkept⟩ := hagreed.retain hg
        obtain ⟨hstaysRest, hrest⟩ := ihparts h hregParts fun other hother =>
          ih other (List.mem_cons_of_mem _ hother)
        have hcount := hkept.count
        simp only [retainParts, hstays, Bool.not_true, Bool.false_eq_true, if_false, hcount,
          if_neg (not_lt.2 (Int.natCast_nonneg n)), Int.toNat_natCast]
        exact ⟨hstaysRest, .inr ⟨n, hkept, hrest⟩⟩

/-- Pruning keeps a list of names if every name may stand at the active word. -/
theorem Lists.retain (hactive : ∀ name, query.accepts name query.active = true) {start : Nat}
    {outline : Outline} (h : outline.Lists grammar root query names start)
    (hreadable : outline.Readable grammar root) :
    (outline.retain query start).stays = true ∧
      (outline.retain query start).value.Lists grammar root query names start := by
  induction outline generalizing start with
  | blank | word | deferred | scope => exact h.elim
  | sequence mark info parts ih =>
      obtain ⟨plain, hreads, hreg⟩ := hreadable
      obtain ⟨plains, rfl, hparts⟩ := readsAs_sequence_iff.1 hreads
      rw [Outline.retain]
      split
      · exact ⟨rfl, h⟩
      · exact PartsList.retain hg hlength h hparts hreg.2.2.2
          fun part hmem start hlists hpart => ih part hmem hlists hpart
  | choice mark branches ih =>
      rw [Outline.retain]
      split
      · exact ⟨rfl, h⟩
      · rcases h with ⟨rfl, placeholder, rfl⟩ | h
        · have hnames : names.filter (fun name => query.accepts name query.active) = names :=
            List.filter_eq_self.2 fun name _ => hactive name
          rw [retainBranches_nameList, hnames]
          exact ⟨rfl, .inl ⟨rfl, placeholder, rfl⟩⟩
        · obtain ⟨branch, hmem, hbranchLists⟩ := branchesList_iff.1 h
          have hbranch : branch.Readable grammar root := by
            rcases hreadable.branches with hall | ⟨placeholder, others, rfl⟩
            · exact hall branch hmem
            · exact absurd hbranchLists (not_lists_of_mem_nameList hmem)
          obtain ⟨hstays, hlists⟩ := ih branch hmem hbranchLists hbranch
          have hkept := mem_retainBranches.2 ⟨branch, hmem, hstays, rfl⟩
          exact ⟨by simpa using List.ne_nil_of_mem hkept,
            .inr (branchesList_iff.2 ⟨_, hkept, hlists⟩)⟩

end PositionDetermined

end Outline

/-! ### Passes -/

namespace Language

open Outline

variable {language : Language} {root : RuleId} {query : Query} {names : List String} {limit : Nat}

section PositionDetermined

variable (hg : language.grammar.unreferenced.PositionDetermined root)
include hg

theorem fits_grow {scope : Option TypeId} {index : Int} {start n : Nat} {part : Outline}
    (h : part.Fits language.grammar root query start n) {growth : Growth}
    (hgrowth : language.grow query limit scope index part = some growth) :
    growth.node.Fits language.grammar root query start n ∧
      (part.isExpanded = true → growth.node.isExpanded = true) := by
  obtain ⟨plain, words, hreads, hreg, huniform, hyields, hlength, hagrees⟩ := h
  obtain ⟨plain', hgrows⟩ := growsTo_of_grow hg hreads hreg hgrowth
  refine ⟨⟨plain', words, hgrows.readsAs, hgrows.follows.regular,
    hgrows.follows.uniform huniform, hgrows.keeps words hyields, hlength, hagrees⟩, ?_⟩
  intro hexp
  exact hgrows.readsAs.isExpanded.symm.trans
    (hgrows.follows.expanded (hreads.isExpanded.trans hexp))

theorem agreed_grow {scope : Option TypeId} {index : Int} {start n : Nat} {part : Outline}
    (h : part.Agreed language.grammar root query start n) {growth : Growth}
    (hgrowth : language.grow query limit scope index part = some growth) :
    growth.node.Agreed language.grammar root query start n := by
  obtain ⟨hfits, hexp⟩ := h
  obtain ⟨hgrown, hgrownExp⟩ := fits_grow hg hfits hgrowth
  exact ⟨hgrown, hgrownExp hexp⟩

/-- A pass keeps a list of names, wherever it takes the outline to start. -/
theorem lists_grow {scope : Option TypeId} {index : Int} {start : Nat} {outline : Outline}
    (h : outline.Lists language.grammar root query names start) {growth : Growth}
    (hgrowth : language.grow query limit scope index outline = some growth) :
    growth.node.Lists language.grammar root query names start := by
  induction outline generalizing start scope index growth with
  | blank | word | deferred | scope => exact h.elim
  | sequence mark info parts ih =>
      cases hmark : mark.complete with
      | true =>
          rw [grow, if_pos hmark] at hgrowth
          cases hgrowth
          exact h
      | false =>
          obtain ⟨grown, mark', hgrown, rfl⟩ := grow_sequence_eq_some hmark hgrowth
          simp only [Outline.Lists] at h ⊢
          clear hgrowth
          induction parts generalizing start scope index grown with
          | nil => exact h.elim
          | cons part parts ihparts =>
              by_cases hstop : (limit : Int) ≤ index
              · rw [growParts, if_pos hstop] at hgrown
                cases hgrown
                exact h
              · obtain ⟨head, rest, hhead, hrest, rfl⟩ := growParts_cons_eq_some hstop hgrown
                rcases h with h | ⟨n, hagreed, h⟩
                · exact .inl (ih part (List.mem_cons_self ..) h hhead)
                · exact .inr ⟨n, agreed_grow hg hagreed hhead, ihparts
                    (fun other hother => ih other (List.mem_cons_of_mem _ hother)) h rest hrest⟩
  | choice mark branches ih =>
      cases hmark : mark.complete with
      | true =>
          rw [grow, if_pos hmark] at hgrowth
          cases hgrowth
          exact h
      | false =>
          rcases h with ⟨rfl, placeholder, rfl⟩ | h
          · rw [grow_nameList query limit scope index hmark] at hgrowth
            cases hgrowth
            exact .inl ⟨rfl, placeholder, rfl⟩
          · obtain ⟨grown, mark', hgrown, rfl⟩ := grow_choice_eq_some hmark hgrowth
            obtain ⟨branch, hmem, h⟩ := branchesList_iff.1 h
            obtain ⟨growth, hgrowthMem, hgrowth⟩ := exists_right_of_forall₂ hgrown branch hmem
            exact .inr (branchesList_iff.2
              ⟨_, List.mem_map_of_mem hgrowthMem, ih branch hmem h hgrowth⟩)

/-- A part that is expanded and stays agrees with the query. -/
theorem agreed_of_stays {start : Nat} {part plain : Outline}
    (hreads : part.ReadsAs language.grammar plain)
    (hreg : plain.Regular language.grammar.unreferenced root)
    (huniform : plain.Uniform language.grammar.unreferenced) (hexp : plain.isExpanded = true)
    (hstays : (part.retain query start).stays = true) :
    part.Agreed language.grammar root query start (plain.extent language.grammar.unreferenced) := by
  have hprunes := retain_prunes language.grammar.unreferenced.price query hg hreg start
  have hkept : (plain.retain query start).stays = true := (hreads.retain query start).1.trans hstays
  have hfollows := hprunes.follows hkept
  obtain ⟨words, hwords⟩ := hfollows.regular.exists_yields hg
  have hyields := hfollows.yields words hwords
  have hagrees := hprunes.agrees hkept (start + words.length)
    (expandedTo_of_isExpanded hexp _ _) words hwords
  rw [Nat.add_sub_cancel_left, List.take_length] at hagrees
  exact ⟨⟨plain, words, hreads, hreg, huniform, hyields, huniform.length_eq hyields, hagrees⟩,
    hreads.isExpanded.symm.trans hexp⟩

/-- A pass that comes upon a reference at the active word lists the names there. -/
theorem lists_of_comesUpon {kind : String} {scope : Option TypeId} {start : Nat} {outline : Outline}
    (hreadable : outline.Readable language.grammar root)
    (h : language.comesUpon query limit kind scope start outline = true) {growth : Growth}
    (hgrowth : language.grow query limit scope start outline = some growth) :
    growth.node.Lists language.grammar root query (language.candidates none (.name kind)) start := by
  obtain ⟨plain, hreads, hreg⟩ := hreadable
  induction outline generalizing plain start scope growth with
  | blank | word | scope => simp [comesUpon] at h
  | deferred mark part =>
      simp only [comesUpon, Bool.and_eq_true, Bool.not_eq_true', beq_iff_eq] at h
      obtain ⟨⟨hmark, hreference⟩, hplace⟩ := h
      have hstart : start = query.active := by
        simp only [Query.listsNamesAt, Bool.and_eq_true, beq_iff_eq] at hplace
        omega
      simp only [grow, hmark, Bool.false_eq_true, if_false, growDeferred, hreference, Option.isSome_some,
        if_true, hplace, listNames, Option.map_some, Option.some.injEq] at hgrowth
      subst hgrowth
      exact .inl ⟨hstart, part.placeholder, rfl⟩
  | sequence mark info parts ih =>
      simp only [comesUpon, Bool.and_eq_true, Bool.not_eq_true'] at h
      obtain ⟨hmark, h⟩ := h
      obtain ⟨plains, rfl, hparts⟩ := readsAs_sequence_iff.1 hreads
      obtain ⟨-, -, -, hregParts⟩ := hreg
      obtain ⟨grown, mark', hgrown, rfl⟩ := grow_sequence_eq_some hmark hgrowth
      simp only [Outline.Lists]
      clear hgrowth hreads
      induction hparts generalizing start scope grown with
      | nil => simp [partsComeUpon] at h
      | @cons part plain parts plains hpart hparts ihparts =>
          obtain ⟨hregPart, huniform, hregRest⟩ := hregParts
          simp only [partsComeUpon, Bool.and_eq_true, decide_eq_true_eq, Bool.or_eq_true] at h
          obtain ⟨⟨-, hlt⟩, h⟩ := h
          obtain ⟨head, rest, hhead, hrest, rfl⟩ := growParts_cons_eq_some (not_le.2 hlt) hgrown
          rcases h with h | h
          · exact .inl (ih part (List.mem_cons_self ..) h hhead plain hpart hregPart)
          · rw [hhead, Option.any_some, Bool.and_eq_true, Int.toNat_natCast] at h
            obtain ⟨hstays, h⟩ := h
            obtain ⟨plain', hgrows⟩ := growsTo_of_grow hg hpart hregPart hhead
            -- the rest starts at a place that is known and before the limit
            cases hparts with
            | nil => simp [partsComeUpon] at h
            | cons hnext hothers =>
                have hunif := huniform (by simp)
                have hknown : 0 ≤ head.index ∧ head.index < limit := by
                  simp only [partsComeUpon, Bool.and_eq_true, decide_eq_true_eq] at h
                  exact h.1
                obtain ⟨-, hexp, hends⟩ := hgrows.ends hunif hknown.1 hknown.2
                have hagreed := agreed_of_stays hg hgrows.readsAs hgrows.follows.regular
                  (hgrows.follows.uniform hunif) hexp hstays
                rw [hgrows.follows.extent hunif] at hagreed
                rw [hends, ← Int.natCast_add] at h hrest
                exact .inr ⟨_, hagreed, ihparts
                  (fun other hother => ih other (List.mem_cons_of_mem _ hother)) h hregRest rest hrest⟩
  | choice mark branches ih =>
      simp only [comesUpon, Bool.and_eq_true, Bool.not_eq_true'] at h
      obtain ⟨hmark, h⟩ := h
      obtain ⟨branch, hmem, h⟩ := branchesComeUpon_iff.1 h
      rcases readsAs_choice_iff.1 hreads with
        ⟨plains, rfl, hbranches⟩ | ⟨placeholder, names, rfl, rfl⟩
      · obtain ⟨plain, hplain, hbranch⟩ := exists_right_of_forall₂ hbranches branch hmem
        obtain ⟨grown, mark', hgrown, rfl⟩ := grow_choice_eq_some hmark hgrowth
        obtain ⟨growth, hgrowthMem, hgrowth⟩ := exists_right_of_forall₂ hgrown branch hmem
        exact .inr (branchesList_iff.2 ⟨_, List.mem_map_of_mem hgrowthMem, ih branch hmem h hgrowth
          plain hbranch (regularBranches_iff.1 hreg.2.2 plain hplain)⟩)
      · rcases List.mem_cons.1 hmem with rfl | hmem
        · simp [ofWord, fill, comesUpon] at h
        · obtain ⟨name, -, rfl⟩ := List.mem_map.1 hmem
          simp [ofWord, fill, comesUpon] at h

/-! ### Runs -/

variable (hlength : query.words.length = query.active + 1)
  (hactive : ∀ name, query.accepts name query.active = true)
include hlength hactive

/-- A pass and the pruning after it keep a list of names. -/
theorem lists_round {scope : Option TypeId} {outline : Outline}
    (hreadable : outline.Readable language.grammar root) {growth : Growth}
    (hgrowth : language.grow query limit scope 0 outline = some growth)
    (h : growth.node.Lists language.grammar root query names 0) :
    ∃ pruned, growth.node.prune query 0 = some pruned ∧
      pruned.Lists language.grammar root query names 0 ∧
      pruned.Readable language.grammar root := by
  have hgrown := readable_grow hg hreadable hgrowth
  obtain ⟨hstays, hlists⟩ := h.retain hg hlength hactive hgrown
  exact ⟨_, by rw [prune, if_pos hstays], hlists, readable_retain hg hgrown hstays⟩

/-- Once names are listed, they are listed in the outcome. -/
theorem exists_lists_of_lists {scope : Option TypeId} {passes : Nat} {outline : Outline}
    (hreadable : outline.Readable language.grammar root)
    (h : outline.Lists language.grammar root query names 0) {outcome : Option Outline}
    (houtcome : language.settleWithin query scope limit passes outline = some outcome) :
    ∃ settled, outcome = some settled ∧ settled.Lists language.grammar root query names 0 := by
  induction passes generalizing outline with
  | zero => cases houtcome
  | succ passes ih =>
      obtain ⟨growth, hgrowth, houtcome⟩ := Option.bind_eq_some_iff.1 houtcome
      obtain ⟨pruned, hpruned, hlists, hprunedReadable⟩ :=
        lists_round hg hlength hactive hreadable hgrowth (lists_grow hg h hgrowth)
      rw [hpruned] at houtcome
      simp only at houtcome
      split at houtcome
      · exact ih hprunedReadable hlists houtcome
      · cases houtcome
        exact ⟨pruned, rfl, hlists⟩

/-- If one of the passes comes upon a reference at the active word, then the names are listed in the
outcome. -/
theorem exists_lists_of_comesUponWithin {kind : String} {scope : Option TypeId} {passes : Nat}
    {outline : Outline} (hreadable : outline.Readable language.grammar root)
    (h : language.comesUponWithin query scope limit kind passes outline = true)
    {outcome : Option Outline}
    (houtcome : language.settleWithin query scope limit passes outline = some outcome) :
    ∃ settled, outcome = some settled ∧ settled.Lists language.grammar root query
      (language.candidates none (.name kind)) 0 := by
  induction passes generalizing outline with
  | zero => cases houtcome
  | succ passes ih =>
      obtain ⟨growth, hgrowth, houtcome⟩ := Option.bind_eq_some_iff.1 houtcome
      rw [comesUponWithin, Bool.or_eq_true] at h
      rcases h with h | h
      · obtain ⟨pruned, hpruned, hlists, hprunedReadable⟩ := lists_round hg hlength hactive hreadable
          hgrowth (lists_of_comesUpon hg hreadable h hgrowth)
        rw [hpruned] at houtcome
        simp only at houtcome
        split at houtcome
        · exact exists_lists_of_lists hg hlength hactive hprunedReadable hlists houtcome
        · cases houtcome
          exact ⟨pruned, rfl, hlists⟩
      · rw [hgrowth, Option.any_some] at h
        cases hpruned : growth.node.prune query 0 with
        | none => simp [hpruned] at h
        | some pruned =>
            rw [hpruned, Option.any_some, Bool.and_eq_true] at h
            rw [hpruned] at houtcome
            simp only [h.1, if_true] at houtcome
            obtain ⟨hstays, rfl⟩ := prune_eq_some hpruned
            exact ih (readable_retain hg (readable_grow hg hreadable hgrowth) hstays) h.2 houtcome

end PositionDetermined

end Language

end Typeahead
