/-
Unfolding a rule of a position-determined grammar.

Whatever the depth, an outline *stands for* a rule when it is regular, yields exactly what the rule
derives, and costs no more than the rule.  A rule that is put off stands for itself, and unfolding a
rule gives an outline that stands for it and costs less.  Unfolding never runs out of depth, because
the chain of references below a rule is no longer than the rank of the rule.

Main definitions:

* `Typeahead.Outline.StandsFor` — an outline has the language of a rule;
* `Typeahead.Outline.Fillable` — the nodes that a rule is unfolded into;
* `Typeahead.Language.Unfolds` — what unfolding a rule comes to.

Main results:

* `Typeahead.Outline.StandsFor.sequence`, `Typeahead.Outline.StandsFor.choice` — parts that stand
  for the parts of a rule make up an outline that stands for the rule;
* `Typeahead.Language.unfold_unfolds` — unfolding has an outcome, which stands for the rule.
-/

import Typeahead.Proofs.Steps

set_option relaxedAutoImplicit false
set_option autoImplicit false

namespace Typeahead

/-! ### Words and slots of plain rules -/

theorem angled_isEmpty (name : String) : (angled name).isEmpty = false := by
  have hlength : (angled name).length ≠ 0 := by
    simp [angled, String.length_append]
  simpa using hlength

theorem Leaf.word_isBlock (name : String) (leaf : Leaf) : (leaf.word name).isBlock = false := by
  cases leaf <;> rfl

theorem Leaf.word_isEmpty (name : String) {leaf : Leaf} (h : (RuleKind.leaf leaf).isPlain = true) :
    (leaf.word name).text.isEmpty = false := by
  cases leaf with
  | literal text => simpa [RuleKind.isPlain, Leaf.word, Word.literal] using h
  | quoted isFile fileKind =>
      simp only [Leaf.word, Word.pattern, quotedPattern]
      split
      · split <;> exact angled_isEmpty _
      · exact angled_isEmpty _
      · exact angled_isEmpty _
  | real | integer | lineString | delimited => exact angled_isEmpty _

theorem FreeWord.placeholder_isEmpty (free : FreeWord) : free.placeholder.isEmpty = false := by
  rw [FreeWord.placeholder]
  split
  · exact angled_isEmpty _
  · split <;> exact angled_isEmpty _

namespace Grammar

variable {grammar : Grammar} {root id : RuleId}

theorem plainSlot_none : grammar.PlainSlot none := ⟨rfl, rfl⟩

theorem endKeyword?_of_isPlain {kind : RuleKind} (h : grammar.kind? id = some kind)
    (hplain : kind.isPlain = true) : grammar.endKeyword? id = none := by
  rw [endKeyword?, h]
  cases kind with
  | block body endKeyword => simp [RuleKind.isPlain] at hplain
  | _ => rfl

/-- The parts of a sequence rule that is reached are plain: none of them is a block, and none of
them loads a type. -/
theorem PositionDetermined.plainSlot (hg : grammar.PositionDetermined root)
    (hid : grammar.Reaches root id) (index : Nat) : grammar.PlainSlot (some ⟨id, index⟩) := by
  have hchild : ∀ {children : List RuleId} {singleToken isError : Bool},
      grammar.kind? id = some (.sequence children singleToken isError) →
      ∀ child ∈ children, ∃ kind, grammar.kind? child = some kind ∧ kind.isPlain :=
    fun hkind child hmem => hg.plain child (hid.refers (refers_of_kind hkind hmem))
  constructor
  · simp only [closing?]
    split
    · next children singleToken isError hkind =>
        split
        · rfl
        · rw [List.findSome?_eq_none_iff]
          intro child hmem
          obtain ⟨kind, hk, hplain⟩ := hchild hkind child (List.mem_of_mem_drop hmem)
          rw [endKeyword?_of_isPlain hk hplain]
          rfl
    · rfl
  · have hnone : grammar.followingLoad? ⟨id, index⟩ = none := by
      simp only [followingLoad?]
      split
      · next children singleToken isError hkind =>
          rw [List.findSome?_eq_none_iff]
          intro child hmem
          obtain ⟨kind, hk, hplain⟩ := hchild hkind child (List.mem_of_mem_drop hmem)
          rw [hk]
          cases kind with
          | typeLoad load => simp [RuleKind.isPlain] at hplain
          | _ => rfl
      · rfl
    simp [loadFrom?, hnone]

end Grammar

namespace Outline

/-! ### Outlines that stand for rules -/

/-- The outline is regular, has the language of the rule, and costs no more than the rule. -/
structure StandsFor (grammar : Grammar) (root : RuleId) (cost : RuleId → Nat) (id : RuleId)
    (node : Outline) : Prop where
  regular : node.Regular grammar root
  yields : ∀ words, node.Yields grammar words ↔ grammar.Derives id words
  uniform : grammar.HasLength id (grammar.ruleLength id) → node.Uniform grammar
  weight : node.weight cost ≤ cost id
  variants : node.variants grammar.parseChoices = grammar.parseChoices id

variable {grammar : Grammar} {root id : RuleId} {cost : RuleId → Nat}

theorem StandsFor.extent {node : Outline} (h : StandsFor grammar root cost id node)
    (hg : grammar.PositionDetermined root)
    (hlength : grammar.HasLength id (grammar.ruleLength id)) :
    node.extent grammar = grammar.ruleLength id := by
  obtain ⟨words, hwords⟩ := h.regular.exists_yields hg
  rw [← (h.uniform hlength).length_eq hwords, hlength words ((h.yields words).1 hwords)]

/-- A rule that is put off stands for itself. -/
theorem standsFor_deferred {mark : Mark} {part : Deferred} (hslot : grammar.PlainSlot mark.slot)
    (hmark : mark.complete = false) (href : part.reference = none) (hrule : part.rule = some id)
    (hid : grammar.Reaches root id) : StandsFor grammar root cost id (.deferred mark part) where
  regular := ⟨hslot, hmark, href, id, hrule, hid⟩
  yields words := by
    constructor
    · rintro ⟨other, hother, hwords⟩
      rw [hrule] at hother
      cases hother
      exact hwords
    · intro hwords
      exact ⟨id, hrule, hwords⟩
  uniform hlength other hother := by
    rw [hrule] at hother
    cases hother
    exact hlength
  weight := by simp [Outline.weight, hrule]
  variants := by simp [Outline.variants, hrule]

theorem standsFor_word {mark : Mark} {w : Word} (hslot : grammar.PlainSlot mark.slot)
    (hcount : mark.complete = true → mark.wordCount = 1) (hblock : w.isBlock = false)
    (htext : w.text.isEmpty = false) (hderives : ∀ words, grammar.Derives id words ↔ words = [w])
    (hchoices : grammar.parseChoices id = 1) :
    StandsFor grammar root cost id (.word mark w) where
  regular := ⟨hslot, hblock, htext⟩
  yields words := (hderives words).symm
  uniform _ := hcount
  weight := Nat.zero_le _
  variants := by simp [Outline.variants, hchoices]

/-! Lists of outlines that stand for lists of rules. -/

section Lists

variable {children : List RuleId} {nodes : List Outline}

theorem StandsFor.yieldsAll (h : List.Forall₂ (StandsFor grammar root cost) children nodes)
    {words : List Word} : YieldsAll grammar nodes words ↔ grammar.DerivesAll children words := by
  induction h generalizing words with
  | nil => rw [Grammar.derivesAll_nil, YieldsAll]
  | cons hnode _ ih => simp only [YieldsAll, Grammar.derivesAll_cons, hnode.yields, ih]

theorem StandsFor.totalWeight (h : List.Forall₂ (StandsFor grammar root cost) children nodes) :
    Outline.totalWeight cost nodes ≤ (children.map cost).sum := by
  induction h with
  | nil => exact Nat.zero_le _
  | cons hnode _ ih =>
      rw [Outline.totalWeight, List.map_cons, List.sum_cons]
      exact Nat.add_le_add hnode.weight ih

theorem StandsFor.variantsAll (h : List.Forall₂ (StandsFor grammar root cost) children nodes) :
    Outline.variantsAll grammar.parseChoices nodes =
      (children.map grammar.parseChoices).prod := by
  induction h with
  | nil => rfl
  | cons hnode _ ih =>
      rw [Outline.variantsAll, List.map_cons, List.prod_cons, hnode.variants, ih]

theorem StandsFor.variantsAny (h : List.Forall₂ (StandsFor grammar root cost) children nodes) :
    Outline.variantsAny grammar.parseChoices nodes = (children.map grammar.parseChoices).sum := by
  induction h with
  | nil => rfl
  | cons hnode _ ih =>
      rw [Outline.variantsAny, List.map_cons, List.sum_cons, hnode.variants, ih]

theorem StandsFor.regularParts (h : List.Forall₂ (StandsFor grammar root cost) children nodes)
    (hfixed : ∀ child ∈ children.dropLast, grammar.HasLength child (grammar.ruleLength child)) :
    RegularParts grammar root nodes := by
  induction h with
  | nil => trivial
  | @cons child node children nodes hnode hnodes ih =>
      cases hnodes with
      | nil => exact ⟨hnode.regular, fun hne => absurd rfl hne, trivial⟩
      | @cons child' node' children nodes hnode' hnodes =>
          rw [List.dropLast_cons_cons] at hfixed
          refine ⟨hnode.regular, fun _ => hnode.uniform (hfixed child (List.mem_cons_self ..)), ?_⟩
          exact ih fun other hother => hfixed other (List.mem_cons_of_mem _ hother)

theorem StandsFor.uniformAll (h : List.Forall₂ (StandsFor grammar root cost) children nodes)
    (hlength : ∀ child ∈ children, grammar.HasLength child (grammar.ruleLength child)) :
    UniformAll grammar nodes := by
  induction h with
  | nil => trivial
  | cons hnode _ ih =>
      exact ⟨hnode.uniform (hlength _ (List.mem_cons_self ..)),
        ih fun other hother => hlength other (List.mem_cons_of_mem _ hother)⟩

end Lists

/-- Parts that stand for the parts of a sequence rule make up an outline that stands for the
rule. -/
theorem StandsFor.sequence {children : List RuleId} {parts : List Outline} {mark : Mark}
    {info : SequenceInfo} (hg : grammar.PositionDetermined root)
    (hprice : grammar.Priced root cost) (hid : grammar.Reaches root id)
    (hkind : grammar.kind? id = some (.sequence children info.singleToken false))
    (hne : parts ≠ []) (hmark : mark.complete = false)
    (h : List.Forall₂ (StandsFor grammar root cost) children parts) :
    StandsFor grammar root cost id (.sequence mark info parts) where
  regular := by
    refine ⟨⟨id, children, hid, hkind⟩, hne, by simp [hmark], StandsFor.regularParts h ?_⟩
    intro child hchild
    obtain ⟨n, hn⟩ := hg.fixed id children _ _ hid hkind child hchild
    exact hn.hasLength_ruleLength
  yields words := by
    rw [Yields, StandsFor.yieldsAll h, Grammar.derives_sequence hkind]
  uniform hlength := by
    refine ⟨by simp [hmark], StandsFor.uniformAll h ?_⟩
    intro child hchild
    exact hg.hasLength_of_mem hid hkind hlength hchild
  weight := (StandsFor.totalWeight h).trans (hprice id _ hid hkind).le
  variants := by
    rw [Outline.variants, StandsFor.variantsAll h, hg.parseChoices_sequence hid hkind]

/-- Branches that stand for the branches of a choice rule make up an outline that stands for the
rule. -/
theorem StandsFor.choice {children : List RuleId} {branches : List Outline} {mark : Mark}
    (hg : grammar.PositionDetermined root) (hprice : grammar.Priced root cost)
    (hid : grammar.Reaches root id) (hkind : grammar.kind? id = some (.choice children))
    (hne : branches ≠ []) (hmark : mark.complete = false)
    (h : List.Forall₂ (StandsFor grammar root cost) children branches) :
    StandsFor grammar root cost id (.choice mark branches) where
  regular := by
    refine ⟨hne, by simp [hmark], regularBranches_iff.2 ?_⟩
    intro branch hmem
    obtain ⟨child, -, hstands⟩ := exists_left_of_forall₂ h branch hmem
    exact hstands.regular
  yields words := by
    rw [Yields, yieldsAny_iff, Grammar.derives_choice hkind]
    constructor
    · rintro ⟨branch, hmem, hwords⟩
      obtain ⟨child, hchild, hstands⟩ := exists_left_of_forall₂ h branch hmem
      exact ⟨child, hchild, (hstands.yields words).1 hwords⟩
    · rintro ⟨child, hchild, hwords⟩
      obtain ⟨branch, hmem, hstands⟩ := exists_right_of_forall₂ h child hchild
      exact ⟨branch, hmem, (hstands.yields words).2 hwords⟩
  uniform hlength := by
    have hall : ∀ branch ∈ branches, branch.Uniform grammar ∧
        branch.extent grammar = grammar.ruleLength id := by
      intro branch hmem
      obtain ⟨child, hchild, hstands⟩ := exists_left_of_forall₂ h branch hmem
      have hreach := hid.refers (Grammar.refers_of_kind hkind hchild)
      -- a branch derives nothing that the choice does not
      have hn : grammar.HasLength child (grammar.ruleLength id) := fun words hwords =>
        hlength words (.choice hkind hchild hwords)
      refine ⟨hstands.uniform hn.hasLength_ruleLength, ?_⟩
      rw [hstands.extent hg hn.hasLength_ruleLength, hg.ruleLength_eq hreach hn]
    refine ⟨by simp [hmark], uniformAny_iff.2 ?_⟩
    intro branch hmem
    cases branches with
    | nil => exact absurd rfl hne
    | cons first rest =>
        obtain ⟨huniform, hextent⟩ := hall branch hmem
        exact ⟨huniform, hextent.trans (hall first (List.mem_cons_self ..)).2.symm⟩
  weight := (StandsFor.totalWeight h).trans (hprice id _ hid hkind).le
  variants := by
    rw [Outline.variants, StandsFor.variantsAny h, hg.parseChoices_choice hid hkind]

/-- An outline that stands for the target of a wrapper stands for the wrapper. -/
theorem StandsFor.wrapper {target : RuleId} {wrapping : Wrapping} {node : Outline}
    (h : StandsFor grammar root cost target node) (hg : grammar.PositionDetermined root)
    (hid : grammar.Reaches root id)
    (hkind : grammar.kind? id = some (.wrapper wrapping (some target)))
    (hcost : cost target ≤ cost id) : StandsFor grammar root cost id node where
  regular := h.regular
  yields words := by rw [h.yields, Grammar.derives_wrapper hkind]
  uniform hlength := by
    have hn : grammar.HasLength target (grammar.ruleLength id) := fun words hwords =>
      hlength words (.wrapper hkind hwords)
    exact h.uniform hn.hasLength_ruleLength
  weight := h.weight.trans hcost
  variants := by rw [h.variants, hg.parseChoices_wrapper hid hkind]

/-! ### Nodes to fill -/

/-- The nodes that a rule is unfolded into: not complete, in a plain slot, and without a reference
of their own. -/
structure Fillable (grammar : Grammar) (node : Outline) : Prop where
  complete : node.mark.complete = false
  slot : grammar.PlainSlot node.mark.slot
  reference : node.reference? = none

theorem fillable_blank {slot : Option Slot} (h : grammar.PlainSlot slot) :
    (Outline.blank { slot }).Fillable grammar := ⟨rfl, h, rfl⟩

/-- A word without flags becomes a pattern in a node that refers to nothing and that no load takes its
type from. -/
theorem fillFree_eq_fill {node : Outline} (hload : node.mark.slot.bind grammar.loadFrom? = none)
    (href : node.reference? = none) {free : FreeWord} (htype : free.refersToType = false)
    (hname : free.isKnownName = false) :
    node.fillFree grammar id free = node.fill (.pattern free.placeholder) := by
  have hsame : node.tagByLoad grammar id = node := by
    rw [tagByLoad, hload]
    cases node.refersToType <;> rfl
  rw [fillFree, hsame, tagByKind, htype, tagByName, hname]
  cases node with
  | deferred mark part =>
      simp only [reference?] at href
      simp [showPlaceholder, href]
  | _ => rfl

/-- A word without flags becomes a pattern. -/
theorem Fillable.fillFree_eq {node : Outline} (h : node.Fillable grammar) {free : FreeWord}
    (hplain : (RuleKind.freeWord free).isPlain = true) :
    node.fillFree grammar id free = node.fill (.pattern free.placeholder) := by
  simp only [RuleKind.isPlain, Bool.and_eq_true, Bool.not_eq_true'] at hplain
  obtain ⟨⟨htype, hname⟩, -⟩ := hplain
  exact fillFree_eq_fill h.slot.2 h.reference htype hname

theorem Fillable.standsFor_fill {node : Outline} (h : node.Fillable grammar) {w : Word}
    (hblock : w.isBlock = false) (htext : w.text.isEmpty = false)
    (hderives : ∀ words, grammar.Derives id words ↔ words = [w])
    (hchoices : grammar.parseChoices id = 1) : StandsFor grammar root cost id (node.fill w) :=
  standsFor_word h.slot (fun _ => rfl) hblock htext hderives hchoices

end Outline

/-! ### Unfolding -/

theorem exists_mapM_eq_some {α β : Type} {f : α → Option β} {R : α → β → Prop} {xs : List α}
    (h : ∀ x ∈ xs, ∃ y, f x = some y ∧ R x y) :
    ∃ ys, xs.mapM f = some ys ∧ List.Forall₂ R xs ys := by
  have hall : ∃ ys, List.Forall₂ (fun x y => f x = some y ∧ R x y) xs ys := by
    induction xs with
    | nil => exact ⟨[], .nil⟩
    | cons x xs ih =>
        obtain ⟨y, hy⟩ := h x (List.mem_cons_self ..)
        obtain ⟨ys, hys⟩ := ih fun other hother => h other (List.mem_cons_of_mem _ hother)
        exact ⟨y :: ys, .cons hy hys⟩
  obtain ⟨ys, hys⟩ := hall
  exact ⟨ys, mapM_eq_some_iff.2 (hys.imp fun _ _ => And.left), hys.imp fun _ _ => And.right⟩

namespace Language

variable {language : Language} {root : RuleId} {cost : RuleId → Nat}

/-- The outcome of unfolding a rule: it made a difference, and the node now stands for the rule but
costs less. -/
structure Unfolds (language : Language) (root : RuleId) (cost : RuleId → Nat) (id : RuleId)
    (unfolded : Unfolded) : Prop where
  grew : unfolded.grew = true
  standsFor : unfolded.node.StandsFor language.grammar root cost id
  weight : unfolded.node.weight cost < cost id

/-- The later parts of a sequence stand for their rules. -/
theorem standsFor_deferRest (hg : language.grammar.PositionDetermined root) {id : RuleId}
    (hid : language.grammar.Reaches root id) {children : List RuleId}
    (hchildren : ∀ child ∈ children, language.grammar.Reaches root child) :
    List.Forall₂ (Outline.StandsFor language.grammar root cost) children
      (deferRest id children) := by
  rw [deferRest]
  -- the numbering of the slots moves on with the induction
  generalize 1 = first
  induction children generalizing first with
  | nil => exact .nil
  | cons child children ih =>
      rw [List.zipIdx_cons, List.map_cons]
      refine .cons ?_ (ih (fun other hother => hchildren other (List.mem_cons_of_mem _ hother)) _)
      exact Outline.standsFor_deferred (hg.plainSlot hid first) rfl rfl rfl
        (hchildren child (List.mem_cons_self ..))

/-- Unfolding a rule to more than its rank has an outcome, which stands for the rule. -/
theorem unfoldWithin_unfolds (hg : language.grammar.PositionDetermined root)
    (hprice : language.grammar.Priced root cost) {fuel : Nat} {id : RuleId}
    (hid : language.grammar.Reaches root id) (hfuel : language.grammar.rank id < fuel)
    (scope : Option TypeId) (openBlock : Bool) {node : Outline}
    (hnode : node.Fillable language.grammar) :
    ∃ unfolded, language.unfoldWithin fuel scope openBlock (some id) node = some unfolded ∧
      language.Unfolds root cost id unfolded := by
  induction fuel generalizing id openBlock node with
  | zero => omega
  | succ fuel ih =>
      obtain ⟨kind, hkind, hplain⟩ := hg.plain id hid
      have hcost := hprice id kind hid hkind
      have hbelow : ∀ target, language.grammar.Refers id target →
          language.grammar.rank target < fuel := fun target href => by
        have := hg.rank_lt_rank hid href
        omega
      cases kind with
      | leaf leaf =>
          refine ⟨_, by simp only [unfoldWithin, hkind]; rfl, by rfl, ?_, ?_⟩
          · exact hnode.standsFor_fill (leaf.word_isBlock _) (Leaf.word_isEmpty _ hplain)
              (fun _ => Grammar.derives_leaf hkind) (hg.parseChoices_leaf hid hkind)
          · exact (Nat.zero_le _).trans_lt hcost
      | freeWord free =>
          -- without flags the word is a plain placeholder, and nothing is put off
          refine ⟨_, by simp only [unfoldWithin, hkind]; rfl, ?_, ?_, ?_⟩
          · simp [settled, hnode.fillFree_eq hplain, Outline.fill, Outline.isDeferred]
          · simp only [settled, hnode.fillFree_eq hplain]
            exact hnode.standsFor_fill rfl free.placeholder_isEmpty
              (fun _ => Grammar.derives_free hkind) (hg.parseChoices_free hid hkind)
          · simp only [settled, hnode.fillFree_eq hplain]
            exact (Nat.zero_le _).trans_lt hcost
      | sequence children singleToken isError =>
          simp only [RuleKind.isPlain, Bool.and_eq_true, Bool.not_eq_true'] at hplain
          obtain ⟨hne, rfl⟩ := hplain
          cases children with
          | nil => simp at hne
          | cons first rest =>
              have href : ∀ child ∈ first :: rest, language.grammar.Refers id child :=
                fun child hchild => Grammar.refers_of_kind hkind hchild
              have hfirst := href first (List.mem_cons_self ..)
              -- only the first part is unfolded, the others are put off
              obtain ⟨head, hhead, hstands⟩ := ih (hid.refers hfirst) (hbelow first hfirst) false
                (Outline.fillable_blank (hg.plainSlot hid 0))
              have hparts : List.Forall₂ (Outline.StandsFor language.grammar root cost)
                  (first :: rest) (head.node :: deferRest id rest) :=
                .cons hstands.standsFor (standsFor_deferRest hg hid fun child hchild =>
                  hid.refers (href child (List.mem_cons_of_mem _ hchild)))
              refine ⟨_, by simp only [unfoldWithin, hkind, hhead]; rfl, rfl, ?_, ?_⟩
              · exact Outline.StandsFor.sequence hg hprice hid hkind (by simp) hnode.complete
                  hparts
              · exact (Outline.StandsFor.totalWeight hparts).trans_lt hcost
      | choice branches =>
          have hne : branches ≠ [] := by
            rintro rfl
            simp [RuleKind.isPlain] at hplain
          obtain ⟨unfolded, hunfolded, hall⟩ :=
            exists_mapM_eq_some fun branch (hbranch : branch ∈ branches) =>
              have href := Grammar.refers_of_kind hkind hbranch
              ih (hid.refers href) (hbelow branch href) false
                (Outline.fillable_blank Grammar.plainSlot_none)
          have hnodes : List.Forall₂ (Outline.StandsFor language.grammar root cost) branches
              (unfolded.map Unfolded.node) :=
            List.forall₂_map_right_iff.2 (hall.imp fun _ _ h => h.standsFor)
          refine ⟨_, by simp only [unfoldWithin, hkind, hunfolded]; rfl, rfl, ?_, ?_⟩
          · refine Outline.StandsFor.choice hg hprice hid hkind ?_ hnode.complete hnodes
            intro hnil
            rw [List.map_eq_nil_iff.1 hnil] at hall
            cases hall
            exact hne rfl
          · exact (Outline.StandsFor.totalWeight hnodes).trans_lt hcost
      | wrapper wrapping target =>
          cases target with
          | none => simp [RuleKind.isPlain] at hplain
          | some target =>
              have href : language.grammar.Refers id target :=
                Grammar.refers_of_kind hkind (by simp [RuleKind.references])
              -- the same node is filled with the target
              obtain ⟨unfolded, hunfolded, hstands⟩ := ih (hid.refers href) (hbelow target href)
                openBlock hnode
              have hle : cost target < cost id := by simpa [RuleKind.references] using hcost
              refine ⟨unfolded, by simp only [unfoldWithin, hkind, hunfolded], hstands.grew, ?_, ?_⟩
              · exact hstands.standsFor.wrapper hg hid hkind hle.le
              · exact hstands.weight.trans hle
      | block => simp [RuleKind.isPlain] at hplain
      | typeLoad => simp [RuleKind.isPlain] at hplain
      | typeCommand => simp [RuleKind.isPlain] at hplain
      | unknown => simp [RuleKind.isPlain] at hplain

/-- Unfolding a rule of a position-determined grammar has an outcome, which stands for the rule. -/
theorem unfold_unfolds (hg : language.grammar.PositionDetermined root)
    (hprice : language.grammar.Priced root cost) {id : RuleId}
    (hid : language.grammar.Reaches root id) (scope : Option TypeId) (openBlock : Bool)
    {node : Outline} (hnode : node.Fillable language.grammar) :
    ∃ unfolded, language.unfold scope openBlock (some id) node = some unfolded ∧
      language.Unfolds root cost id unfolded := by
  have hrank := hg.rank_lt_size hid
  exact unfoldWithin_unfolds hg hprice hid (by rw [unfoldFuel]; omega) scope openBlock hnode

end Language

end Typeahead
