/-
When a pass comes upon a name.

A rule that is put off takes one pass, and so does a reference.  Of a sequence only the first part is
unfolded together with the rule, so each part after it takes one pass more.  This tells how many passes
a rule takes, and which pass comes upon a name that a rule derives.

A pass lists names only where it knows the place, and for that the parts before the name have to be
unfolded by then.  If no part before the name is nested deeper than the name itself, except that the
first part of a sequence may be nested one level deeper, then this is so, and the names are found.

Main definitions:

* `Typeahead.Grammar.NestsWithin` — how many passes a rule takes after it is unfolded;
* `Typeahead.Grammar.DerivesName`, `Typeahead.Grammar.DerivesNameIn` — commands with a known name at
  some place, and those in which a given pass comes upon the name;
* `Typeahead.Outline.Due`, `Typeahead.Outline.Coming` — the same for outlines.

Main results:

* `Typeahead.Language.due_grow`, `Typeahead.Language.coming_grow` — each pass takes one off;
* `Typeahead.Language.comesUpon_of_coming` — the last pass comes upon the name;
* `Typeahead.Language.findsNames_of_derivesNameIn` — names at the cursor are found.
-/

import Typeahead.Proofs.NameLists

set_option relaxedAutoImplicit false
set_option autoImplicit false

namespace Typeahead

/-! ### Rules -/

/-- The word is a known name of the kind, and does not refer to a type as well. -/
structure FreeWord.IsName (free : FreeWord) (kind : String) : Prop where
  known : free.isKnownName = true
  untyped : free.refersToType = false
  kind_eq : free.kind = kind
  nonempty : kind.isEmpty = false

namespace Grammar

/-- Once the rule is unfolded, `n` further passes unfold the rest of it.  A free word may be a
reference, which takes one pass. -/
inductive NestsWithin (grammar : Grammar) : Nat → RuleId → Prop
  | leaf {n : Nat} {id : RuleId} {leaf : Leaf} : grammar.kind? id = some (.leaf leaf) →
      NestsWithin grammar n id
  | free {n : Nat} {id : RuleId} {free : FreeWord} : grammar.kind? id = some (.freeWord free) →
      0 < n → NestsWithin grammar n id
  | sequence {n : Nat} {id first : RuleId} {rest : List RuleId} {singleToken : Bool} :
      grammar.kind? id = some (.sequence (first :: rest) singleToken false) →
      NestsWithin grammar n first → (rest ≠ [] → 0 < n) →
      (∀ child ∈ rest, NestsWithin grammar (n - 1) child) → NestsWithin grammar n id
  | choice {n : Nat} {id : RuleId} {branches : List RuleId} :
      grammar.kind? id = some (.choice branches) →
      (∀ branch ∈ branches, NestsWithin grammar n branch) → NestsWithin grammar n id
  | wrapper {n : Nat} {id target : RuleId} {wrapping : Wrapping} :
      grammar.kind? id = some (.wrapper wrapping (some target)) →
      NestsWithin grammar n target → NestsWithin grammar n id

/-- The rule derives a command with a known name of the kind between the words `lead` and `tail`. -/
inductive DerivesName (grammar : Grammar) (kind : String) :
    RuleId → List Word → List Word → Prop
  | free {id : RuleId} {free : FreeWord} : grammar.kind? id = some (.freeWord free) →
      free.IsName kind → DerivesName grammar kind id [] []
  | sequence {id child : RuleId} {before after : List RuleId} {singleToken : Bool}
      {first lead tail rest : List Word} :
      grammar.kind? id = some (.sequence (before ++ child :: after) singleToken false) →
      grammar.DerivesAll before first → DerivesName grammar kind child lead tail →
      grammar.DerivesAll after rest → DerivesName grammar kind id (first ++ lead) (tail ++ rest)
  | choice {id branch : RuleId} {branches : List RuleId} {lead tail : List Word} :
      grammar.kind? id = some (.choice branches) → branch ∈ branches →
      DerivesName grammar kind branch lead tail → DerivesName grammar kind id lead tail
  | wrapper {id target : RuleId} {wrapping : Wrapping} {lead tail : List Word} :
      grammar.kind? id = some (.wrapper wrapping (some target)) →
      DerivesName grammar kind target lead tail → DerivesName grammar kind id lead tail

/-- The same, where pass `n` after the rule is unfolded comes upon the name and finds the parts before
it unfolded. -/
inductive DerivesNameIn (grammar : Grammar) (kind : String) :
    Nat → RuleId → List Word → List Word → Prop
  | free {id : RuleId} {free : FreeWord} : grammar.kind? id = some (.freeWord free) →
      free.IsName kind → DerivesNameIn grammar kind 1 id [] []
  | first {n : Nat} {id child : RuleId} {after : List RuleId} {singleToken : Bool}
      {lead tail rest : List Word} :
      grammar.kind? id = some (.sequence (child :: after) singleToken false) →
      DerivesNameIn grammar kind n child lead tail → grammar.DerivesAll after rest →
      DerivesNameIn grammar kind n id lead (tail ++ rest)
  | later {n : Nat} {id first child : RuleId} {before after : List RuleId} {singleToken : Bool}
      {opening middle lead tail rest : List Word} :
      grammar.kind? id = some (.sequence (first :: (before ++ child :: after)) singleToken false) →
      grammar.NestsWithin (n + 1) first → grammar.Derives first opening →
      (∀ other ∈ before, grammar.NestsWithin n other) → grammar.DerivesAll before middle →
      DerivesNameIn grammar kind n child lead tail → grammar.DerivesAll after rest →
      DerivesNameIn grammar kind (n + 1) id (opening ++ (middle ++ lead)) (tail ++ rest)
  | choice {n : Nat} {id branch : RuleId} {branches : List RuleId} {lead tail : List Word} :
      grammar.kind? id = some (.choice branches) → branch ∈ branches →
      DerivesNameIn grammar kind n branch lead tail → DerivesNameIn grammar kind n id lead tail
  | wrapper {n : Nat} {id target : RuleId} {wrapping : Wrapping} {lead tail : List Word} :
      grammar.kind? id = some (.wrapper wrapping (some target)) →
      DerivesNameIn grammar kind n target lead tail → DerivesNameIn grammar kind n id lead tail

variable {grammar : Grammar} {kind : String} {n : Nat} {id : RuleId} {lead tail : List Word}

/-- The words around the name are those of a command, with the placeholder of the name between them. -/
theorem DerivesName.exists_derives (h : grammar.DerivesName kind id lead tail) :
    ∃ free : FreeWord, free.IsName kind ∧
      grammar.Derives id (lead ++ .pattern free.placeholder :: tail) := by
  induction h with
  | @free id free hkind hname => exact ⟨free, hname, .free hkind⟩
  | sequence hkind hbefore _ hafter ih =>
      obtain ⟨free, hname, hderives⟩ := ih
      have hall := hbefore.append (.cons hderives hafter)
      rw [List.append_assoc, List.cons_append, ← List.append_assoc] at hall
      exact ⟨free, hname, .sequence hkind hall⟩
  | choice hkind hmem _ ih =>
      obtain ⟨free, hname, hderives⟩ := ih
      exact ⟨free, hname, .choice hkind hmem hderives⟩
  | wrapper hkind _ ih =>
      obtain ⟨free, hname, hderives⟩ := ih
      exact ⟨free, hname, .wrapper hkind hderives⟩

theorem DerivesNameIn.pos (h : grammar.DerivesNameIn kind n id lead tail) : 0 < n := by
  induction h with
  | free => exact Nat.one_pos
  | first _ _ _ ih => exact ih
  | later => exact Nat.succ_pos _
  | choice _ _ _ ih => exact ih
  | wrapper _ _ ih => exact ih

end Grammar

/-! ### Outlines -/

namespace Outline

variable {grammar : Grammar} {root : RuleId} {query : Query} {kind : String} {n : Nat}

/-- If the node is put off, `n` passes unfold it to the end. -/
def DueNode (grammar : Grammar) (n : Nat) : Outline → Prop
  | .deferred _ part =>
      0 < n ∧ (part.reference = none → ∃ id, part.rule = some id ∧ grammar.NestsWithin (n - 1) id)
  | .blank _ | .word _ _ | .sequence _ _ _ | .choice _ _ | .scope _ _ => True

/-- All that is put off in the outline is unfolded to the end by `n` passes. -/
def Due (grammar : Grammar) (n : Nat) (outline : Outline) : Prop :=
  outline.Everywhere (DueNode grammar n)

theorem due_of_isExpanded {outline : Outline} (h : outline.isExpanded = true) :
    outline.Due grammar n := by
  induction outline with
  | blank | word | scope => trivial
  | deferred mark part => simp [isExpanded] at h
  | sequence mark info parts ih =>
      exact ⟨trivial, allEverywhere_iff.2 fun part hmem =>
        ih part hmem (allExpanded_iff.1 h part hmem)⟩
  | choice mark branches ih =>
      exact ⟨trivial, allEverywhere_iff.2 fun branch hmem =>
        ih branch hmem (allExpanded_iff.1 h branch hmem)⟩

theorem Due.isExpanded {outline : Outline} (h : outline.Due grammar 0) :
    outline.isExpanded = true := by
  induction outline with
  | blank | word | scope => rfl
  | deferred mark part => exact absurd h.1 (Nat.lt_irrefl 0)
  | sequence mark info parts ih =>
      exact allExpanded_iff.2 fun part hmem => ih part hmem (allEverywhere_iff.1 h.2 part hmem)
  | choice mark branches ih =>
      exact allExpanded_iff.2 fun branch hmem =>
        ih branch hmem (allEverywhere_iff.1 h.2 branch hmem)

theorem Due.retain {outline : Outline} (h : outline.Due grammar n) (start : Nat) :
    (outline.retain query start).value.Due grammar n :=
  retain_everywhere (fun _ _ _ _ _ => trivial) (fun _ _ _ _ => trivial) h start

mutual

/-- In the outline, which starts at `start`, the pass number `n` from now comes upon a reference to
names of the kind at the active word.  The parts before it fit the query and are unfolded by then. -/
def Coming (grammar : Grammar) (root : RuleId) (query : Query) (kind : String) (n : Nat) :
    Nat → Outline → Prop
  | start, .deferred _ part =>
      part.reference = some (.name kind) ∧ n = 1 ∧ start = query.active ∨
        part.reference = none ∧ ∃ id m lead tail, part.rule = some id ∧ n = m + 1 ∧
          grammar.DerivesNameIn kind m id lead tail ∧ start + lead.length = query.active ∧
          query.Agrees start lead
  | start, .sequence _ _ parts => PartsComing grammar root query kind n start parts
  | start, .choice _ branches => BranchesComing grammar root query kind n start branches
  | _, .blank _ | _, .word _ _ | _, .scope _ _ => False

/-- The same for the parts of a sequence. -/
def PartsComing (grammar : Grammar) (root : RuleId) (query : Query) (kind : String) (n : Nat) :
    Nat → List Outline → Prop
  | _, [] => False
  | start, part :: parts =>
      Coming grammar root query kind n start part ∨
        ∃ m, part.Fits grammar root query start m ∧ part.Due grammar n ∧
          PartsComing grammar root query kind n (start + m) parts

/-- The same for the branches of a choice. -/
def BranchesComing (grammar : Grammar) (root : RuleId) (query : Query) (kind : String) (n : Nat) :
    Nat → List Outline → Prop
  | _, [] => False
  | start, branch :: branches =>
      Coming grammar root query kind n start branch ∨
        BranchesComing grammar root query kind n start branches

end

theorem branchesComing_iff {start : Nat} {branches : List Outline} :
    BranchesComing grammar root query kind n start branches ↔
      ∃ branch ∈ branches, branch.Coming grammar root query kind n start := by
  induction branches with
  | nil => simp [BranchesComing]
  | cons branch branches ih => simp [BranchesComing, ih]

theorem Coming.le_active {start : Nat} {outline : Outline}
    (h : outline.Coming grammar root query kind n start) : start ≤ query.active := by
  induction outline generalizing start with
  | blank | word | scope => exact h.elim
  | deferred mark part =>
      rcases h with ⟨-, -, rfl⟩ | ⟨-, id, m, lead, tail, -, -, -, hplace, -⟩
      · exact le_rfl
      · omega
  | sequence mark info parts ih =>
      rw [Coming] at h
      induction parts generalizing start with
      | nil => exact h.elim
      | cons part parts ihparts =>
          rcases h with h | ⟨m, -, -, h⟩
          · exact ih part (List.mem_cons_self ..) h
          · have := ihparts (fun other hother => ih other (List.mem_cons_of_mem _ hother)) h
            omega
  | choice mark branches ih =>
      obtain ⟨branch, hmem, h⟩ := branchesComing_iff.1 h
      exact ih branch hmem h

theorem PartsComing.le_active {start : Nat} {parts : List Outline}
    (h : PartsComing grammar root query kind n start parts) : start ≤ query.active := by
  have hcoming : (Outline.sequence {} {} parts).Coming grammar root query kind n start := h
  exact hcoming.le_active

/-- The reference is still put off. -/
theorem Coming.not_isExpanded {start : Nat} {outline : Outline}
    (h : outline.Coming grammar root query kind n start) : outline.isExpanded = false := by
  induction outline generalizing start with
  | blank | word | scope => exact h.elim
  | deferred => rfl
  | sequence mark info parts ih =>
      rw [Coming] at h
      rw [isExpanded]
      induction parts generalizing start with
      | nil => exact h.elim
      | cons part parts ihparts =>
          rw [allExpanded, Bool.and_eq_false_iff]
          rcases h with h | ⟨m, -, -, h⟩
          · exact .inl (ih part (List.mem_cons_self ..) h)
          · exact .inr (ihparts (fun other hother => ih other (List.mem_cons_of_mem _ hother)) h)
  | choice mark branches ih =>
      obtain ⟨branch, hmem, h⟩ := branchesComing_iff.1 h
      rw [isExpanded, Bool.eq_false_iff, Ne, allExpanded_iff]
      intro hall
      exact Bool.false_ne_true ((ih branch hmem h).symm.trans (hall branch hmem))

theorem Coming.incomplete {start : Nat} {outline : Outline}
    (h : outline.Coming grammar root query kind n start)
    (hreadable : outline.Readable grammar root) : outline.mark.complete = false := by
  obtain ⟨plain, hreads, hreg⟩ := hreadable
  rw [← hreads.mark, Bool.eq_false_iff]
  intro hcomplete
  have hexp := hreads.isExpanded.symm.trans (hreg.isExpanded_of_complete hcomplete)
  exact Bool.false_ne_true (h.not_isExpanded.symm.trans hexp)

/-- A branch in which something is coming is not from a list of names. -/
theorem Coming.readable {start : Nat} {branch : Outline} {mark : Mark} {branches : List Outline}
    (h : branch.Coming grammar root query kind n start)
    (hreadable : (Outline.choice mark branches).Readable grammar root) (hmem : branch ∈ branches) :
    branch.Readable grammar root := by
  rcases hreadable.branches with hall | ⟨placeholder, names, rfl⟩
  · exact hall branch hmem
  · have hexp := isExpanded_of_mem_nameList hmem
    exact absurd (h.not_isExpanded.symm.trans hexp) Bool.false_ne_true

/-! ### Pruning -/

section PositionDetermined

variable (hg : grammar.unreferenced.PositionDetermined root)
include hg

/-- Pruning the parts of a sequence keeps what is coming, given that it does so for each of them. -/
theorem PartsComing.retain {start : Nat} {parts plains : List Outline}
    (h : PartsComing grammar root query kind n start parts)
    (hreads : List.Forall₂ (ReadsAs grammar) parts plains)
    (hreg : RegularParts grammar.unreferenced root plains)
    (ih : ∀ part ∈ parts, ∀ start, part.Coming grammar root query kind n start →
      part.Readable grammar root → (part.retain query start).stays = true ∧
        (part.retain query start).value.Coming grammar root query kind n start) :
    (retainParts query start parts).stays = true ∧
      PartsComing grammar root query kind n start (retainParts query start parts).value := by
  induction hreads generalizing start with
  | nil => exact h.elim
  | @cons part plain parts plains hpart hparts ihparts =>
      obtain ⟨hregPart, -, hregParts⟩ := hreg
      rcases h with h | ⟨m, hfits, hdue, h⟩
      · obtain ⟨hstays, hcoming⟩ := ih part (List.mem_cons_self ..) start h ⟨plain, hpart, hregPart⟩
        -- what is put off has no count yet, so pruning stops here
        have hcount : (part.retain query start).value.count < 0 := by
          obtain ⟨hsame, hvalue⟩ := hpart.retain query start
          have hprunes := retain_prunes grammar.unreferenced.price query hg hregPart start
          have hkept := (hprunes.follows (hsame.trans hstays)).regular
          by_contra hknown
          have hexp := hkept.isExpanded_of_count (hvalue.count ▸ not_lt.1 hknown)
          exact Bool.false_ne_true (hcoming.not_isExpanded.symm.trans
            (hvalue.isExpanded.symm.trans hexp))
        simp only [retainParts, hstays, Bool.not_true, Bool.false_eq_true, if_false, if_pos hcount]
        exact ⟨trivial, .inl hcoming⟩
      · obtain ⟨hstays, hkept, -⟩ := hfits.retain hg
        have hkeptDue : (part.retain query start).value.Due grammar n := hdue.retain start
        simp only [retainParts, hstays, Bool.not_true, Bool.false_eq_true, if_false]
        split
        · exact ⟨rfl, .inr ⟨m, hkept, hkeptDue, h⟩⟩
        · next hcount =>
            obtain ⟨hstaysRest, hrest⟩ := ihparts h hregParts fun other hother =>
              ih other (List.mem_cons_of_mem _ hother)
            rw [hkept.count_eq (not_lt.1 hcount), Int.toNat_natCast]
            exact ⟨hstaysRest, .inr ⟨m, hkept, hkeptDue, hrest⟩⟩

theorem Coming.retain {start : Nat} {outline : Outline}
    (h : outline.Coming grammar root query kind n start)
    (hreadable : outline.Readable grammar root) :
    (outline.retain query start).stays = true ∧
      (outline.retain query start).value.Coming grammar root query kind n start := by
  induction outline generalizing start with
  | blank | word | scope => exact h.elim
  | deferred => exact ⟨rfl, h⟩
  | sequence mark info parts ih =>
      obtain ⟨plain, hreads, hreg⟩ := hreadable
      obtain ⟨plains, rfl, hparts⟩ := readsAs_sequence_iff.1 hreads
      rw [Outline.retain]
      split
      · exact ⟨rfl, h⟩
      · exact PartsComing.retain hg h hparts hreg.2.2.2
          fun part hmem start hcoming hpart => ih part hmem hcoming hpart
  | choice mark branches ih =>
      rw [Outline.retain]
      split
      · exact ⟨rfl, h⟩
      · obtain ⟨branch, hmem, hbranchComing⟩ := branchesComing_iff.1 h
        obtain ⟨hstays, hcoming⟩ := ih branch hmem hbranchComing
          (hbranchComing.readable hreadable hmem)
        have hkept := mem_retainBranches.2 ⟨branch, hmem, hstays, rfl⟩
        exact ⟨by simpa using List.ne_nil_of_mem hkept, branchesComing_iff.2 ⟨_, hkept, hcoming⟩⟩

end PositionDetermined

end Outline

/-! ### Unfolding -/

namespace Outline

variable {grammar : Grammar} {root : RuleId} {query : Query} {kind : String} {n : Nat}

/-- A known name is put off as a reference to names of its kind. -/
theorem Fillable.fillFree_isName {node : Outline} (h : node.Fillable grammar) {free : FreeWord}
    (hname : free.IsName kind) (id : RuleId) :
    (∃ mark placeholder, node.fillFree grammar id free = .deferred mark
      { rule := some id, reference := some (.name kind), placeholder }) ∧
      node.taggedFree grammar id free = true := by
  obtain ⟨hknown, huntyped, rfl, hkind⟩ := hname
  have hload : node.tagByLoad grammar id = node := by
    rw [tagByLoad, h.slot.2]
    cases node.refersToType <;> rfl
  have hkinded : node.tagByKind free id = node := by
    simp [tagByKind, huntyped]
  have htype : node.refersToType = false := by
    simp [refersToType, h.reference]
  have hnamed : node.refersToName = false := by
    simp [refersToName, h.reference]
  constructor
  · simp [fillFree, hload, hkinded, tagByName, hknown, hkind, hnamed, referToName, htype, refer,
      showPlaceholder]
  · simp [taggedFree, hload, hkinded, hknown, hkind, hnamed]

/-- A node that stands for a rule fits if the rule derives words that agree with the query. -/
theorem StandsFor.fits {cost : RuleId → Nat} {id : RuleId} {node plain : Outline}
    (h : plain.StandsFor grammar.unreferenced root cost id) (hreads : node.ReadsAs grammar plain)
    {m : Nat} (hlength : grammar.unreferenced.HasLength id m) {words : List Word}
    (hwords : grammar.Derives id words) {start : Nat} (hagrees : query.Agrees start words) :
    node.Fits grammar root query start words.length :=
  ⟨plain, words, hreads, h.regular, h.uniform hlength.hasLength_ruleLength,
    (h.yields words).2 (Grammar.derives_unreferenced.2 hwords), rfl, hagrees⟩

end Outline

namespace Language

open Outline

variable {language : Language} {root : RuleId} {query : Query} {kind : String} {n limit : Nat}

theorem exists_fuel {fuel : Nat} {scope : Option TypeId} {openBlock : Bool} {rule : Option RuleId}
    {node : Outline} {unfolded : Unfolded}
    (h : language.unfoldWithin fuel scope openBlock rule node = some unfolded) :
    ∃ fuel', fuel = fuel' + 1 := by
  cases fuel with
  | zero => cases h
  | succ fuel' => exact ⟨fuel', rfl⟩

section PositionDetermined

variable (hg : language.grammar.unreferenced.PositionDetermined root)
include hg

/-- A rule that nests to a given depth is unfolded into what is due in as many passes. -/
theorem unfoldWithin_due {id : RuleId} (h : language.grammar.NestsWithin n id)
    (hid : language.grammar.unreferenced.Reaches root id) {fuel : Nat} {scope : Option TypeId}
    {openBlock : Bool} {node : Outline} (hnode : node.Fillable language.grammar.unreferenced)
    {unfolded : Unfolded}
    (hunfolded : language.unfoldWithin fuel scope openBlock (some id) node = some unfolded) :
    unfolded.node.Due language.grammar n := by
  induction h generalizing fuel openBlock node unfolded with
  | leaf hkind =>
      obtain ⟨fuel, rfl⟩ := exists_fuel hunfolded
      simp only [unfoldWithin, hkind, Option.some.injEq] at hunfolded
      subst hunfolded
      trivial
  | @free n id free hkind hpos =>
      obtain ⟨fuel, rfl⟩ := exists_fuel hunfolded
      simp only [unfoldWithin, hkind, Option.some.injEq] at hunfolded
      subst hunfolded
      rcases hnode.of_unreferenced.fillFree_cases id free with
        hfill | ⟨mark, reference, -, -, hfill⟩
      · simp only [settled, hfill]
        trivial
      · simp only [settled, hfill]
        exact ⟨hpos, by simp⟩
  | @sequence n id first rest singleToken hkind hfirst hpos hrest ihfirst ihrest =>
      obtain ⟨fuel, rfl⟩ := exists_fuel hunfolded
      have hkind' := (Grammar.kind?_unreferenced_iff (by simp)).2 hkind
      simp only [unfoldWithin, hkind, Bool.false_eq_true, if_false] at hunfolded
      obtain ⟨head, hhead, rfl⟩ := Option.map_eq_some_iff.1 hunfolded
      have hheadDue := ihfirst
        (hid.refers (Grammar.refers_of_kind hkind' (List.mem_cons_self ..)))
        (fillable_blank (hg.plainSlot hid 0)) hhead
      refine ⟨trivial, hheadDue, allEverywhere_iff.2 fun part hmem => ?_⟩
      obtain ⟨entry, hentry, rfl⟩ := List.mem_map.1 hmem
      have hchild := List.fst_mem_of_mem_zipIdx hentry
      exact ⟨hpos (List.ne_nil_of_mem hchild), fun _ => ⟨entry.1, rfl, hrest _ hchild⟩⟩
  | @choice n id branches hkind hbranches ih =>
      obtain ⟨fuel, rfl⟩ := exists_fuel hunfolded
      have hkind' := (Grammar.kind?_unreferenced_iff (by simp)).2 hkind
      simp only [unfoldWithin, hkind] at hunfolded
      obtain ⟨unfoldeds, hall, rfl⟩ := Option.map_eq_some_iff.1 hunfolded
      refine ⟨trivial, allEverywhere_iff.2 fun node hmem => ?_⟩
      obtain ⟨inner, hinner, rfl⟩ := List.mem_map.1 hmem
      obtain ⟨branch, hbranch, hunfolds⟩ :=
        exists_left_of_forall₂ (mapM_eq_some_iff.1 hall) inner hinner
      exact ih branch hbranch (hid.refers (Grammar.refers_of_kind hkind' hbranch))
        (fillable_blank Grammar.plainSlot_none) hunfolds
  | @wrapper n id target wrapping hkind htarget ih =>
      obtain ⟨fuel, rfl⟩ := exists_fuel hunfolded
      have hkind' := (Grammar.kind?_unreferenced_iff (by simp)).2 hkind
      simp only [unfoldWithin, hkind] at hunfolded
      exact ih (hid.refers (Grammar.refers_of_kind hkind'
        (by simp [RuleKind.references]))) hnode hunfolded

/-- The parts of a sequence up to the one with the name, all put off. -/
theorem partsComing_deferred {id child : RuleId}
    (hid : language.grammar.unreferenced.Reaches root id) {before : List RuleId}
    (hreach : ∀ other ∈ before, language.grammar.unreferenced.Reaches root other ∧
      ∃ m, language.grammar.unreferenced.HasLength other m)
    (hnests : ∀ other ∈ before, language.grammar.NestsWithin n other) {middle lead tail : List Word}
    (hmiddle : language.grammar.DerivesAll before middle)
    (hname : language.grammar.DerivesNameIn kind n child lead tail) {start : Nat}
    (hplace : start + (middle ++ lead).length = query.active)
    (hagrees : query.Agrees start (middle ++ lead)) (after : List RuleId) (slot : Nat) :
    PartsComing language.grammar root query kind (n + 1) start
      (((before ++ child :: after).zipIdx slot).map
        fun entry => .ofRule entry.1 (some ⟨id, entry.2⟩)) := by
  induction before generalizing middle start slot with
  | nil =>
      obtain rfl := Grammar.derivesAll_nil.1 hmiddle
      exact .inl (.inr ⟨rfl, child, n, lead, tail, rfl, rfl, hname, hplace, hagrees⟩)
  | cons other before ih =>
      obtain ⟨first, rest, rfl, hfirst, hrest⟩ := Grammar.derivesAll_cons.1 hmiddle
      obtain ⟨hother, m, hlength⟩ := hreach other (List.mem_cons_self ..)
      rw [List.append_assoc, Query.agrees_append] at hagrees
      simp only [List.length_append] at hplace
      have hstands : (Outline.ofRule other (some ⟨id, slot⟩)).StandsFor
          language.grammar.unreferenced root language.grammar.unreferenced.price other :=
        standsFor_deferred (hg.plainSlot hid slot) rfl rfl rfl hother
      have hreads : (Outline.ofRule other (some ⟨id, slot⟩)).ReadsAs language.grammar
          (.ofRule other (some ⟨id, slot⟩)) := ⟨rfl, by simp⟩
      rw [List.cons_append, List.zipIdx_cons, List.map_cons]
      refine .inr ⟨first.length, hstands.fits hreads hlength hfirst hagrees.1, ?_, ?_⟩
      · exact ⟨n.succ_pos, fun _ => ⟨other, rfl, hnests other (List.mem_cons_self ..)⟩⟩
      · exact ih (fun other hother => hreach other (List.mem_cons_of_mem _ hother))
          (fun other hother => hnests other (List.mem_cons_of_mem _ hother)) hrest
          (by simp only [List.length_append]; omega) hagrees.2 _

/-- A rule that derives a name is unfolded into an outline in which the name is coming. -/
theorem unfoldWithin_coming {id : RuleId} {lead tail : List Word}
    (h : language.grammar.DerivesNameIn kind n id lead tail)
    (hid : language.grammar.unreferenced.Reaches root id) {fuel : Nat}
    (hfuel : language.grammar.unreferenced.rank id < fuel) {scope : Option TypeId}
    {openBlock : Bool} {node : Outline} (hnode : node.Fillable language.grammar.unreferenced)
    {unfolded : Unfolded}
    (hunfolded : language.unfoldWithin fuel scope openBlock (some id) node = some unfolded)
    {start : Nat} (hplace : start + lead.length = query.active) (hagrees : query.Agrees start lead) :
    unfolded.node.Coming language.grammar root query kind n start ∧ unfolded.grew = true := by
  induction h generalizing fuel openBlock node unfolded start with
  | @free id free hkind hname =>
      obtain ⟨fuel, rfl⟩ := exists_fuel hunfolded
      simp only [unfoldWithin, hkind, Option.some.injEq] at hunfolded
      subst hunfolded
      obtain ⟨⟨mark, placeholder, hfill⟩, htagged⟩ :=
        hnode.of_unreferenced.fillFree_isName hname id
      simp only [settled, hfill, htagged, Bool.true_or, and_true]
      exact .inl ⟨rfl, rfl, hplace⟩
  | @first n id child after singleToken lead tail rest hkind hchild _ ih =>
      obtain ⟨fuel, rfl⟩ := exists_fuel hunfolded
      have href := Grammar.refers_of_kind ((Grammar.kind?_unreferenced_iff (by simp)).2 hkind)
        (List.mem_cons_self (a := child) (l := after))
      have hrank := hg.rank_lt_rank hid href
      simp only [unfoldWithin, hkind, Bool.false_eq_true, if_false] at hunfolded
      obtain ⟨head, hhead, rfl⟩ := Option.map_eq_some_iff.1 hunfolded
      obtain ⟨hcoming, -⟩ := ih (hid.refers href) (by omega)
        (fillable_blank (hg.plainSlot hid 0)) hhead hplace hagrees
      exact ⟨.inl hcoming, rfl⟩
  | @later n id first child before after singleToken opening middle lead tail rest hkind hnests
      hfirst hnestsBefore hbefore hchild _ ih =>
      obtain ⟨fuel, rfl⟩ := exists_fuel hunfolded
      have hkind' := (Grammar.kind?_unreferenced_iff (by simp)).2 hkind
      have href := Grammar.refers_of_kind hkind' (List.mem_cons_self (a := first))
      have hrank : language.grammar.unreferenced.rank first < fuel := by
        have := hg.rank_lt_rank hid href
        omega
      -- every part before the name is followed by another, so it has one length only
      have hfixed : ∀ other ∈ first :: before,
          ∃ m, language.grammar.unreferenced.HasLength other m := by
        intro other hother
        refine hg.fixed id _ _ _ hid hkind' other ?_
        rw [← List.cons_append, List.dropLast_append_of_ne_nil (List.cons_ne_nil _ _)]
        exact List.mem_append_left _ hother
      simp only [unfoldWithin, hkind, Bool.false_eq_true, if_false] at hunfolded
      obtain ⟨head, hhead, rfl⟩ := Option.map_eq_some_iff.1 hunfolded
      have hblank : (Outline.blank { slot := some ⟨id, 0⟩ }).Fillable
          language.grammar.unreferenced := fillable_blank (hg.plainSlot hid 0)
      obtain ⟨head', hhead', plain, hunfolds⟩ := unfoldWithin_unfoldsTo hg hg.priced
        (hid.refers href) hrank scope false hblank
      obtain rfl := Option.some.inj (hhead.symm.trans hhead')
      obtain ⟨m, hlength⟩ := hfixed first (List.mem_cons_self ..)
      rw [Query.agrees_append] at hagrees
      rw [List.length_append] at hplace
      refine ⟨.inr ⟨opening.length, hunfolds.standsFor.fits hunfolds.readsAs hlength hfirst
        hagrees.1, unfoldWithin_due hg hnests (hid.refers href) hblank hhead, ?_⟩, rfl⟩
      refine partsComing_deferred hg hid ?_ hnestsBefore hbefore hchild (by omega) hagrees.2 _ _
      intro other hother
      exact ⟨hid.refers (Grammar.refers_of_kind hkind' (List.mem_cons_of_mem _
        (List.mem_append_left _ hother))), hfixed other (List.mem_cons_of_mem _ hother)⟩
  | @choice n id branch branches lead tail hkind hmem hbranch ih =>
      obtain ⟨fuel, rfl⟩ := exists_fuel hunfolded
      have href := Grammar.refers_of_kind ((Grammar.kind?_unreferenced_iff (by simp)).2 hkind)
        hmem
      have hrank := hg.rank_lt_rank hid href
      simp only [unfoldWithin, hkind] at hunfolded
      obtain ⟨unfoldeds, hall, rfl⟩ := Option.map_eq_some_iff.1 hunfolded
      obtain ⟨inner, hinner, hunfolds⟩ :=
        exists_right_of_forall₂ (mapM_eq_some_iff.1 hall) branch hmem
      obtain ⟨hcoming, -⟩ := ih (hid.refers href) (by omega)
        (fillable_blank Grammar.plainSlot_none) hunfolds hplace hagrees
      exact ⟨branchesComing_iff.2 ⟨_, List.mem_map_of_mem hinner, hcoming⟩, rfl⟩
  | @wrapper n id target wrapping lead tail hkind htarget ih =>
      obtain ⟨fuel, rfl⟩ := exists_fuel hunfolded
      have href := Grammar.refers_of_kind ((Grammar.kind?_unreferenced_iff (by simp)).2 hkind)
        (show target ∈ _ by simp [RuleKind.references])
      have hrank := hg.rank_lt_rank hid href
      simp only [unfoldWithin, hkind] at hunfolded
      exact ih (hid.refers href) (by omega) hnode hunfolded hplace hagrees

/-! ### Passes -/

/-- A pass over the parts of a sequence takes one pass off each of them, if it does so for one. -/
theorem growParts_due {parts plains : List Outline}
    (hreads : List.Forall₂ (ReadsAs language.grammar) parts plains)
    (hreg : RegularParts language.grammar.unreferenced root plains)
    (huniform : UniformAll language.grammar.unreferenced plains)
    (ih : ∀ part ∈ parts, ∀ plain, part.ReadsAs language.grammar plain →
      plain.Regular language.grammar.unreferenced root →
      plain.Uniform language.grammar.unreferenced → ∀ scope (index : Int) (start : Nat) growth,
      Reads limit start index → start + plain.extent language.grammar.unreferenced < limit →
      language.grow query limit scope index part = some growth →
      part.Due language.grammar (n + 1) → growth.node.Due language.grammar n)
    {scope : Option TypeId} {index : Int} {start : Nat} (hstart : Reads limit start index)
    (hend : start + extentAll language.grammar.unreferenced plains < limit) {grown : PartsGrowth}
    (hgrown : language.growParts query limit scope index parts = some grown)
    (h : AllEverywhere (DueNode language.grammar (n + 1)) parts) :
    AllEverywhere (DueNode language.grammar n) grown.parts := by
  induction hreads generalizing scope index start grown with
  | nil =>
      cases hgrown
      trivial
  | @cons part plain parts plains hpart hparts ihparts =>
      rw [extentAll] at hend
      -- the pass does not stop before its limit
      have hgo : ¬ (limit : Int) ≤ index := fun hstop => by
        have := hstart.limit_le hstop
        omega
      obtain ⟨head, rest, hhead, hrest, rfl⟩ := growParts_cons_eq_some hgo hgrown
      obtain ⟨plain', hgrows⟩ := growsTo_of_grow hg hpart hreg.1 hhead
      refine ⟨ih part (List.mem_cons_self ..) plain hpart hreg.1 huniform.1 _ index start head hstart
        (by omega) hhead h.1, ?_⟩
      exact ihparts hreg.2.2 huniform.2 (fun other hother => ih other (List.mem_cons_of_mem _ hother))
        (hgrows.reads huniform.1 start hstart) (by omega) hrest h.2

/-- A pass over a part that ends before the limit takes one pass off. -/
theorem due_grow {outline plain : Outline} (hreads : outline.ReadsAs language.grammar plain)
    (hreg : plain.Regular language.grammar.unreferenced root)
    (huniform : plain.Uniform language.grammar.unreferenced) {scope : Option TypeId} {index : Int}
    {start : Nat} (hstart : Reads limit start index)
    (hend : start + plain.extent language.grammar.unreferenced < limit) {growth : Growth}
    (hgrowth : language.grow query limit scope index outline = some growth)
    (h : outline.Due language.grammar (n + 1)) : growth.node.Due language.grammar n := by
  induction outline generalizing plain scope index start growth with
  | blank | scope => exact hreads.elim
  | word mark w =>
      cases hgrowth
      trivial
  | deferred mark part =>
      obtain ⟨rfl, -⟩ := hreads
      obtain ⟨hslot, hmark, -, id, hrule, hid⟩ := hreg
      replace hrule : part.rule = some id := hrule
      rw [grow, if_neg (by simpa using hmark)] at hgrowth
      obtain ⟨unfolded, hunfolded, rfl⟩ := Option.map_eq_some_iff.1 hgrowth
      cases hreference : part.reference with
      | none =>
          obtain ⟨other, hother, hnests⟩ := h.2 hreference
          obtain rfl := Option.some.inj (hother.symm.trans hrule)
          have hnode : (Outline.deferred mark part).Fillable language.grammar.unreferenced :=
            ⟨hmark, hslot, hreference⟩
          simp only [growDeferred, hreference, Option.isSome_none, Bool.false_eq_true, if_false,
            hrule] at hunfolded
          exact unfoldWithin_due hg hnests hid hnode hunfolded
      | some reference =>
          refine due_of_isExpanded ?_
          simp only [growDeferred, hreference, Option.isSome_some, if_true] at hunfolded
          split at hunfolded
          · simp only [listNames, hreference, Option.some.injEq] at hunfolded
            subst hunfolded
            exact allExpanded_iff.2 fun _ hmem => isExpanded_of_mem_nameList hmem
          · cases hunfolded
            rfl
  | sequence mark info parts ih =>
      obtain ⟨plains, rfl, hparts⟩ := readsAs_sequence_iff.1 hreads
      cases hmark : mark.complete with
      | true =>
          rw [grow, if_pos hmark] at hgrowth
          cases hgrowth
          exact due_of_isExpanded (hreads.isExpanded.symm.trans (hreg.isExpanded_of_complete hmark))
      | false =>
          obtain ⟨grown, mark', hgrown, rfl⟩ := grow_sequence_eq_some hmark hgrowth
          refine ⟨trivial, growParts_due hg hparts hreg.2.2.2 huniform.2 ?_ hstart hend hgrown h.2⟩
          intro part hmem plain hpart hregPart hunif scope index start growth hstart hend hgrowth hdue
          exact ih part hmem hpart hregPart hunif hstart hend hgrowth hdue
  | choice mark branches ih =>
      cases hmark : mark.complete with
      | true =>
          rw [grow, if_pos hmark] at hgrowth
          cases hgrowth
          refine due_of_isExpanded (hreads.isExpanded.symm.trans (hreg.isExpanded_of_complete ?_))
          rw [hreads.mark]
          exact hmark
      | false =>
          rcases readsAs_choice_iff.1 hreads with
            ⟨plains, rfl, hbranches⟩ | ⟨placeholder, names, rfl, rfl⟩
          · obtain ⟨grown, mark', hgrown, rfl⟩ := grow_choice_eq_some hmark hgrowth
            refine ⟨trivial, allEverywhere_iff.2 fun node hnode => ?_⟩
            obtain ⟨growth, hgrowthMem, rfl⟩ := List.mem_map.1 hnode
            obtain ⟨branch, hmem, hgrowth⟩ := exists_left_of_forall₂ hgrown growth hgrowthMem
            obtain ⟨plain, hplain, hbranch⟩ := exists_right_of_forall₂ hbranches branch hmem
            -- all branches are as long as the choice
            obtain ⟨hunif, hextent⟩ := uniformAny_iff.1 huniform.2 plain hplain
            rw [Outline.extent, ← hextent] at hend
            exact ih branch hmem hbranch (regularBranches_iff.1 hreg.2.2 plain hplain) hunif hstart
              hend hgrowth (allEverywhere_iff.1 h.2 branch hmem)
          · rw [grow_nameList query limit scope index hmark] at hgrowth
            cases hgrowth
            exact due_of_isExpanded (allExpanded_iff.2 fun _ hmem => isExpanded_of_mem_nameList hmem)

/-- A pass keeps a part fitting, takes one pass off, and goes on to where the part ends, or to a place
that it does not know. -/
theorem fits_due_grow {part : Outline} {start m : Nat} {scope : Option TypeId} {index : Int}
    (hfits : part.Fits language.grammar root query start m)
    (hdue : part.Due language.grammar (n + 1)) (hstart : Reads limit start index)
    (hend : start + m < limit) {head : Growth}
    (hhead : language.grow query limit scope index part = some head) :
    head.node.Fits language.grammar root query start m ∧ head.node.Due language.grammar n ∧
      Reads limit (start + m) head.index ∧
      (n = 0 → index = start → head.index = (start + m : Nat)) := by
  have hgrown := (fits_grow hg hfits hhead).1
  obtain ⟨plain, words, hreads, hreg, huniform, hyields, rfl, -⟩ := hfits
  rw [huniform.length_eq hyields] at hend hgrown ⊢
  obtain ⟨plain', hgrows⟩ := growsTo_of_grow hg hreads hreg hhead
  have hgrownDue := due_grow hg hreads hreg huniform hstart hend hhead hdue
  refine ⟨hgrown, hgrownDue, hgrows.reads huniform start hstart, ?_⟩
  rintro rfl rfl
  -- nothing is put off any more, so the pass knows where the part ends
  have hexp := hgrows.readsAs.isExpanded.trans hgrownDue.isExpanded
  rw [Int.natCast_add]
  exact hgrows.known huniform hexp (Int.natCast_nonneg start) (by omega)

variable (hlimit : query.active < limit)
include hlimit

/-- A pass over parts takes one pass off what is coming in them, given that it does so in each. -/
theorem growParts_coming {parts plains : List Outline}
    (hreads : List.Forall₂ (ReadsAs language.grammar) parts plains)
    (hreg : RegularParts language.grammar.unreferenced root plains)
    (ih : ∀ part ∈ parts, part.Readable language.grammar root → ∀ scope (index : Int) (start : Nat)
      growth, Reads limit start index → language.grow query limit scope index part = some growth →
      part.Coming language.grammar root query kind (n + 2) start →
      growth.node.Coming language.grammar root query kind (n + 1) start ∧ growth.grew = true)
    {scope : Option TypeId} {index : Int} {start : Nat} (hstart : Reads limit start index)
    {grown : PartsGrowth}
    (hgrown : language.growParts query limit scope index parts = some grown)
    (h : PartsComing language.grammar root query kind (n + 2) start parts) :
    PartsComing language.grammar root query kind (n + 1) start grown.parts ∧ grown.grew = true := by
  induction hreads generalizing scope index start grown with
  | nil => exact h.elim
  | @cons part plain parts plains hpart hparts ihparts =>
      have hgo : ¬ (limit : Int) ≤ index := fun hstop => by
        have := hstart.limit_le hstop
        have := h.le_active
        omega
      obtain ⟨head, rest, hhead, hrest, rfl⟩ := growParts_cons_eq_some hgo hgrown
      rcases h with h | ⟨m, hfits, hdue, h⟩
      · obtain ⟨hcoming, hgrew⟩ := ih part (List.mem_cons_self ..) ⟨plain, hpart, hreg.1⟩ _ index start
          head hstart hhead h
        exact ⟨.inl hcoming, by simp [hgrew]⟩
      · have hle := h.le_active
        obtain ⟨hgrownFits, hgrownDue, hnext, -⟩ := fits_due_grow hg hfits hdue hstart (by omega) hhead
        obtain ⟨hcoming, hgrew⟩ := ihparts hreg.2.2
          (fun other hother => ih other (List.mem_cons_of_mem _ hother)) hnext hrest h
        exact ⟨.inr ⟨m, hgrownFits, hgrownDue, hcoming⟩, by simp [hgrew]⟩

/-- A pass takes one pass off what is coming later, and unfolds something. -/
theorem coming_grow {outline : Outline} (hreadable : outline.Readable language.grammar root)
    {scope : Option TypeId} {index : Int} {start : Nat} (hstart : Reads limit start index)
    {growth : Growth} (hgrowth : language.grow query limit scope index outline = some growth)
    (h : outline.Coming language.grammar root query kind (n + 2) start) :
    growth.node.Coming language.grammar root query kind (n + 1) start ∧ growth.grew = true := by
  induction outline generalizing scope index start growth with
  | blank | word | scope => exact h.elim
  | deferred mark part =>
      obtain ⟨plain, ⟨rfl, -⟩, hslot, hmark, -, id, hrule, hid⟩ := hreadable
      replace hrule : part.rule = some id := hrule
      rcases h with ⟨-, hone, -⟩ |
        ⟨hreference, other, m, lead, tail, hother, hm, hname, hplace, hagrees⟩
      · omega
      · obtain rfl := Option.some.inj (hother.symm.trans hrule)
        obtain rfl : m = n + 1 := by omega
        have hnode : (Outline.deferred mark part).Fillable language.grammar.unreferenced :=
          ⟨hmark, hslot, hreference⟩
        have hrank := hg.rank_lt_size hid
        rw [Grammar.size_unreferenced] at hrank
        rw [grow, if_neg (by simpa using hmark)] at hgrowth
        obtain ⟨unfolded, hunfolded, rfl⟩ := Option.map_eq_some_iff.1 hgrowth
        simp only [growDeferred, hreference, Option.isSome_none, Bool.false_eq_true, if_false,
          hrule] at hunfolded
        exact unfoldWithin_coming hg hname hid (by rw [unfoldFuel]; omega) hnode hunfolded hplace
          hagrees
  | sequence mark info parts ih =>
      obtain ⟨grown, mark', hgrown, rfl⟩ := grow_sequence_eq_some (h.incomplete hreadable) hgrowth
      obtain ⟨plain, hreads, hreg⟩ := hreadable
      obtain ⟨plains, rfl, hparts⟩ := readsAs_sequence_iff.1 hreads
      refine growParts_coming hg hlimit hparts hreg.2.2.2 ?_ hstart hgrown h
      intro part hmem hpart scope index start growth hstart hgrowth hcoming
      exact ih part hmem hpart hstart hgrowth hcoming
  | choice mark branches ih =>
      obtain ⟨grown, mark', hgrown, rfl⟩ := grow_choice_eq_some (h.incomplete hreadable) hgrowth
      obtain ⟨branch, hmem, hbranch⟩ := branchesComing_iff.1 h
      obtain ⟨growth, hgrowthMem, hgrowth⟩ := exists_right_of_forall₂ hgrown branch hmem
      obtain ⟨hcoming, hgrew⟩ := ih branch hmem (hbranch.readable hreadable hmem) hstart hgrowth
        hbranch
      exact ⟨branchesComing_iff.2 ⟨_, List.mem_map_of_mem hgrowthMem, hcoming⟩,
        List.any_eq_true.2 ⟨growth, hgrowthMem, hgrew⟩⟩

/-- The last pass knows where the parts before the name end, so it comes upon the name at the active
word. -/
theorem comesUpon_of_coming (hmode : query.mode = .suggest) {outline : Outline}
    (hreadable : outline.Readable language.grammar root) (scope : Option TypeId) {start : Nat}
    (h : outline.Coming language.grammar root query kind 1 start) :
    language.comesUpon query limit kind scope start outline = true := by
  induction outline generalizing scope start with
  | blank | word | scope => exact h.elim
  | deferred mark part =>
      obtain ⟨plain, ⟨rfl, -⟩, -, hmark, -⟩ := hreadable
      rcases h with ⟨hreference, -, rfl⟩ | ⟨-, id, m, lead, tail, -, hm, hname, -⟩
      · replace hmark : mark.complete = false := hmark
        simp [comesUpon, hmark, hreference, Query.listsNamesAt, hmode]
      · have := hname.pos
        omega
  | sequence mark info parts ih =>
      have hmark : mark.complete = false := h.incomplete hreadable
      obtain ⟨plain, hreads, hreg⟩ := hreadable
      obtain ⟨plains, rfl, hparts⟩ := readsAs_sequence_iff.1 hreads
      obtain ⟨-, -, -, hregParts⟩ := hreg
      rw [comesUpon, hmark, Bool.not_false, Bool.true_and]
      rw [Coming] at h
      clear hreads
      induction hparts generalizing scope start with
      | nil => exact h.elim
      | @cons part plain parts plains hpart hparts ihparts =>
          have hle := h.le_active
          have hwithin : (start : Int) < limit := by omega
          rw [partsComeUpon, decide_eq_true (Int.natCast_nonneg start), decide_eq_true hwithin,
            Bool.true_and, Bool.true_and, Bool.or_eq_true]
          rcases h with h | ⟨m, hfits, hdue, h⟩
          · exact .inl (ih part (List.mem_cons_self ..) ⟨plain, hpart, hregParts.1⟩ _ h)
          · right
            have hleRest := h.le_active
            obtain ⟨head, hhead, -⟩ := grow_growsTo query limit hg hg.priced hpart hregParts.1
              (part.scopeAt scope) start
            obtain ⟨hgrown, -, -, hknown⟩ := fits_due_grow hg hfits hdue .self (by omega) hhead
            rw [hhead, Option.any_some, hknown rfl rfl, Int.toNat_natCast, (hgrown.retain hg).1,
              Bool.true_and]
            exact ihparts (fun other hother => ih other (List.mem_cons_of_mem _ hother)) _ h
              hregParts.2.2
  | choice mark branches ih =>
      have hmark : mark.complete = false := h.incomplete hreadable
      obtain ⟨branch, hmem, hbranch⟩ := branchesComing_iff.1 h
      rw [comesUpon, hmark, Bool.not_false, Bool.true_and]
      exact branchesComeUpon_iff.2
        ⟨branch, hmem, ih branch hmem (hbranch.readable hreadable hmem) scope hbranch⟩

/-! ### Runs -/

/-- If names are coming, one of the passes comes upon them. -/
theorem comesUponWithin_of_coming (hmode : query.mode = .suggest) {scope : Option TypeId}
    {passes : Nat} {outline : Outline} (hreadable : outline.Readable language.grammar root)
    (heffort : outline.effort language.grammar.unreferenced.price < passes)
    (h : outline.Coming language.grammar root query kind (n + 1) 0) :
    language.comesUponWithin query scope limit kind passes outline = true := by
  induction n generalizing passes outline with
  | zero =>
      obtain ⟨passes, rfl⟩ := Nat.exists_eq_succ_of_ne_zero (Nat.ne_zero_of_lt heffort)
      have hupon := comesUpon_of_coming hg hlimit hmode hreadable scope h
      rw [Int.natCast_zero] at hupon
      rw [comesUponWithin, hupon, Bool.true_or]
  | succ n ih =>
      obtain ⟨passes, rfl⟩ := Nat.exists_eq_succ_of_ne_zero (Nat.ne_zero_of_lt heffort)
      obtain ⟨plain, hreads, hreg⟩ := hreadable
      obtain ⟨growth, hgrowth, plain', hgrows⟩ := grow_growsTo query limit hg hg.priced hreads hreg
        scope 0
      have hgrown := readable_grow hg ⟨plain, hreads, hreg⟩ hgrowth
      obtain ⟨hcoming, hgrew⟩ := coming_grow hg hlimit ⟨plain, hreads, hreg⟩ .self hgrowth h
      obtain ⟨hstays, hkept⟩ := hcoming.retain hg hgrown
      -- the pass took some effort off, so there are passes left
      have hlighter := hgrows.lighter hgrew
      have hle := effort_retain language.grammar.unreferenced.price query growth.node 0
      have hleft : (growth.node.retain query 0).value.effort language.grammar.unreferenced.price <
          passes := by omega
      have hlater := ih (readable_retain hg hgrown hstays) hleft hkept
      simp [comesUponWithin, hgrowth, prune, hstays, hgrew, hlater]

end PositionDetermined

/-! ### Requests -/

variable {request : Request}

/-- Names at the cursor are found if no part before them is nested too deep. -/
theorem findsNames_of_derivesNameIn
    (hquery : (language.suggestQuery request).isInclude language.settings.includeCommands = false)
    (hg : language.grammar.Referential root) (hroot : language.grammar.root = some root)
    (hblocks : request.blocks = []) {lead tail : List Word}
    (h : language.grammar.DerivesNameIn kind n root lead tail)
    (hplace : lead.length = (language.suggestQuery request).active)
    (hleads : (language.suggestQuery request).Leads lead) :
    language.findsNames request kind = true := by
  have hplain := Grammar.referential_iff.1 hg
  have hagrees := (agrees_suggestQuery hquery).2 hleads
  have hlength := (suggestQuery_active hquery).1
  have hmode : (language.suggestQuery request).mode = .suggest := by
    simp only [suggestQuery, Reading.ofText]
    split <;> rfl
  obtain ⟨m, rfl⟩ := Nat.exists_eq_succ_of_ne_zero (Nat.ne_zero_of_lt h.pos)
  obtain ⟨unfolded, hunfolded, ⟨plain, hreads, hstands, -⟩, hseed⟩ :=
    seed_unfoldsTo hplain hroot (language.suggestQuery request) request.scope
  have hrank := hplain.rank_lt_size .refl
  rw [Grammar.size_unreferenced] at hrank
  -- the root is unfolded by the seed, and what is coming in it stays
  obtain ⟨hcoming, -⟩ := unfoldWithin_coming hplain h .refl (by rw [unfoldFuel]; omega)
    (fillable_blank Grammar.plainSlot_none) hunfolded (by omega) hagrees
  obtain ⟨hstays, hkept⟩ := hcoming.retain hplain ⟨plain, hreads, hstands.regular⟩
  rw [prune, if_pos hstays, Option.toList_some] at hseed
  obtain ⟨seed, hseed', hcases⟩ := exists_seed hplain hroot (language.suggestQuery request)
    request.scope
  obtain rfl := Option.some.inj (hseed.symm.trans hseed')
  rcases hcases with ⟨hreadable, heffort⟩ | hnil
  · have hbudget := two_mul_price_le_passBudget hplain (language.suggestQuery request)
      (language.suggestQuery request).words.length
    rw [findsNames, suggestBudget, hblocks, hseed, Option.any_some]
    exact comesUponWithin_of_coming hplain (by omega) hmode hreadable (by omega)
      (branchesComing_iff.2 ⟨_, List.mem_singleton_self _, hkept⟩)
  · simp at hnil

end Language

end Typeahead
