/-
Words that take their type from a load behind them.

A load may name a word of its sequence by ordinal; the word then refers to a type of the load's
path.  A word that is unfolded looks for its load among the parts behind it, but only as far as the
first load there, whichever word that one names.  So a word finds its load exactly if no other load
stands between the two, and otherwise shows as a plain pattern.

Main definitions:

* `Typeahead.Grammar.LoadAt` — the loads of a sequence rule, by place;
* `Typeahead.Grammar.FirstFor` — the first load behind a word that names the word;
* `Typeahead.Grammar.NoLoadBetween` — no load of any kind stands between two places;
* `Typeahead.TypeLoad.Gives` — what a word refers to that takes its type from a load.

Main results:

* `Typeahead.Grammar.loadFrom?_eq_some_iff` — which load a word finds;
* `Typeahead.Language.unfold_reference?_iff` — a word refers to the type of the first load behind it
  that names it exactly if no other load stands between;
* `Typeahead.Language.not_unfold_firstFor` — another load may stand between.
-/

import Typeahead.Outline.Unfold

set_option relaxedAutoImplicit false
set_option autoImplicit false

namespace Typeahead

/-- The first value that is found behind the place `i`, by the place where it is found. -/
theorem findSome?_drop_eq_some_iff {α β : Type} {f : α → Option β} (P : α → β → Prop)
    (hf : ∀ x b, f x = some b ↔ P x b) {xs : List α} {i : Nat} {b : β} :
    (xs.drop (i + 1)).findSome? f = some b ↔
      ∃ (j : Nat) (x : α), i < j ∧ xs[j]? = some x ∧ P x b ∧
        ∀ (k : Nat) (y : α) (c : β), i < k → k < j → xs[k]? = some y → ¬ P y c := by
  rw [List.findSome?_eq_some_iff]
  constructor
  · rintro ⟨before, x, after, hdrop, hx, hbefore⟩
    -- places behind `i` are counted from the place after it
    have hplace : ∀ k, i < k → xs[k]? = (before ++ x :: after)[k - (i + 1)]? := by
      intro k hk
      rw [← hdrop, List.getElem?_drop, Nat.add_sub_cancel' hk]
    refine ⟨i + 1 + before.length, x, by omega, ?_, (hf x b).1 hx, ?_⟩
    · rw [hplace _ (by omega), Nat.add_sub_cancel_left, List.getElem?_append_right (Nat.le_refl _)]
      simp
    · intro k y c hik hkj hy hP
      rw [hplace k hik, List.getElem?_append_left (by omega)] at hy
      have hnone := hbefore y (List.mem_of_getElem? hy)
      rw [(hf y c).2 hP] at hnone
      cases hnone
  · rintro ⟨j, x, hij, hx, hP, hbefore⟩
    obtain ⟨hj, rfl⟩ := List.getElem?_eq_some_iff.1 hx
    refine ⟨(xs.drop (i + 1)).take (j - (i + 1)), xs[j], xs.drop (j + 1), ?_, (hf _ b).2 hP, ?_⟩
    · rw [← List.drop_eq_getElem_cons hj]
      have hdrop : xs.drop j = (xs.drop (i + 1)).drop (j - (i + 1)) := by
        rw [List.drop_drop, Nat.add_sub_cancel' hij]
      rw [hdrop, List.take_append_drop]
    · intro y hy
      obtain ⟨k, hk, rfl⟩ := List.mem_take_iff_getElem.1 hy
      rw [List.length_drop] at hk
      refine Option.eq_none_iff_forall_ne_some.2 fun c hc => ?_
      exact hbefore (i + 1 + k) _ c (by omega) (by omega) (by simp) ((hf _ c).1 hc)

/-- The reference of a word that takes its type from the load: the path of the load, without a
variable at its end. -/
inductive TypeLoad.Gives (load : TypeLoad) : SymbolRef → Prop
  | plain : (∀ name, load.path.getLast? = some name → name.startsWith "$" = false) →
      Gives load (.type load.path load.nested)
  | variable {path : TypePath} {name : String} : load.path = path ++ [name] →
      name.startsWith "$" = true → Gives load (.type path load.nested)

theorem TypeLoad.gives_iff {load : TypeLoad} {reference : SymbolRef} :
    load.Gives reference ↔ reference = .type (Outline.dropVariable load.path) load.nested := by
  constructor
  · rintro (hplain | ⟨hpath, hname⟩)
    · have hany : load.path.getLast?.any (·.startsWith "$") = false := by
        cases hlast : load.path.getLast? with
        | none => rfl
        | some name => exact hplain name hlast
      rw [Outline.dropVariable, hany, if_neg Bool.false_ne_true]
    · rw [Outline.dropVariable, hpath, List.getLast?_concat, Option.any_some, if_pos hname,
        List.dropLast_concat]
  · rintro rfl
    rw [Outline.dropVariable]
    split
    · next hany =>
        obtain ⟨name, hlast, hname⟩ := (Option.any_eq_true ..).1 hany
        obtain ⟨path, hpath⟩ := List.getLast?_eq_some_iff.1 hlast
        rw [hpath, List.dropLast_concat]
        exact .variable hpath hname
    · next hany =>
        refine .plain fun name hlast => ?_
        rw [hlast, Option.any_some] at hany
        simpa using hany

namespace Grammar

/-! ### The loads of a sequence -/

/-- The part at a place of a sequence rule is a load. -/
def LoadAt (grammar : Grammar) (id : RuleId) (place : Nat) (load : TypeLoad) : Prop :=
  ∃ children singleToken isError child,
    grammar.kind? id = some (.sequence children singleToken isError) ∧
    children[place]? = some child ∧ grammar.kind? child = some (.typeLoad load)

/-- No load stands between the places `i` and `j`. -/
def NoLoadBetween (grammar : Grammar) (id : RuleId) (i j : Nat) : Prop :=
  ∀ k other, i < k → k < j → ¬ grammar.LoadAt id k other

/-- The load at place `j` is the first one behind place `i` that names the word at `i`. -/
structure FirstFor (grammar : Grammar) (id : RuleId) (i j : Nat) (load : TypeLoad) : Prop where
  loadAt : grammar.LoadAt id j load
  behind : i < j
  names : load.ordinal = some i
  first : ∀ k other, i < k → k < j → grammar.LoadAt id k other → other.ordinal ≠ some i

variable {grammar : Grammar} {id : RuleId} {i j j' : Nat} {load load' : TypeLoad}

theorem FirstFor.place_eq (h : grammar.FirstFor id i j load) (h' : grammar.FirstFor id i j' load') :
    j = j' := by
  rcases Nat.lt_trichotomy j j' with hlt | heq | hgt
  · exact absurd h.names (h'.first j load h.behind hlt h.loadAt)
  · exact heq
  · exact absurd h'.names (h.first j' load' h'.behind hgt h'.loadAt)

theorem loadAt_iff_of_kind {children : List RuleId} {singleToken isError : Bool}
    (hkind : grammar.kind? id = some (.sequence children singleToken isError)) {place : Nat} :
    grammar.LoadAt id place load ↔
      ∃ child, children[place]? = some child ∧ grammar.kind? child = some (.typeLoad load) := by
  constructor
  · rintro ⟨_, _, _, child, hkind', hchild, hload⟩
    cases hkind.symm.trans hkind'
    exact ⟨child, hchild, hload⟩
  · rintro ⟨child, hchild, hload⟩
    exact ⟨_, _, _, child, hkind, hchild, hload⟩

/-- The load that is looked at is the first one behind the place. -/
theorem followingLoad?_eq_some_iff : grammar.followingLoad? ⟨id, i⟩ = some load ↔
    ∃ j, grammar.LoadAt id j load ∧ i < j ∧ grammar.NoLoadBetween id i j := by
  rw [followingLoad?]
  split
  · next children singleToken isError hkind =>
      rw [findSome?_drop_eq_some_iff
        (fun sibling load => grammar.kind? sibling = some (.typeLoad load))
        (fun sibling load => by split <;> simp_all)]
      simp only [NoLoadBetween, loadAt_iff_of_kind hkind]
      constructor
      · rintro ⟨j, child, hij, hchild, hload, hbetween⟩
        refine ⟨j, ⟨child, hchild, hload⟩, hij, ?_⟩
        rintro k other hik hkj ⟨sibling, hsibling, hother⟩
        exact hbetween k sibling other hik hkj hsibling hother
      · rintro ⟨j, ⟨child, hchild, hload⟩, hij, hbetween⟩
        refine ⟨j, child, hij, hchild, hload, ?_⟩
        intro k sibling other hik hkj hsibling hother
        exact hbetween k other hik hkj ⟨sibling, hsibling, hother⟩
  · next hkind =>
      simp only [reduceCtorEq, false_iff, not_exists, not_and]
      rintro j ⟨children, singleToken, isError, child, hsequence, -⟩
      exact absurd hsequence (hkind children singleToken isError)

/-- A word finds the load that names it exactly if no other load stands between the two. -/
theorem loadFrom?_eq_some_iff : grammar.loadFrom? ⟨id, i⟩ = some load ↔
    ∃ j, grammar.FirstFor id i j load ∧ grammar.NoLoadBetween id i j := by
  rw [loadFrom?, Option.filter_eq_some_iff, followingLoad?_eq_some_iff, beq_iff_eq]
  constructor
  · rintro ⟨⟨j, hload, hbehind, hbetween⟩, hnames⟩
    exact ⟨j, ⟨hload, hbehind, hnames, fun k other hik hkj hother =>
      absurd hother (hbetween k other hik hkj)⟩, hbetween⟩
  · rintro ⟨j, hfirst, hbetween⟩
    exact ⟨⟨j, hfirst.loadAt, hfirst.behind, hbetween⟩, hfirst.names⟩

end Grammar

/-! ### Unfolding a word -/

namespace Outline

variable {grammar : Grammar} {id child : RuleId} {i : Nat} {free : FreeWord} {node : Outline}

/-- A plain word refers to what it finds in a load behind it, and to nothing otherwise. -/
theorem reference?_fillFree (htype : free.refersToType = false) (hname : free.isKnownName = false)
    (hslot : node.mark.slot = some ⟨id, i⟩) (hnode : node.reference? = none) :
    (node.fillFree grammar child free).reference? =
      (grammar.loadFrom? ⟨id, i⟩).map fun load =>
        .type (dropVariable load.path) load.nested := by
  have hrefers : node.refersToType = false := by rw [refersToType, hnode]
  rw [fillFree, tagByName, hname, Bool.false_and, Bool.false_and, if_neg Bool.false_ne_true,
    tagByKind, htype, Bool.false_and, Bool.false_and, if_neg Bool.false_ne_true, tagByLoad,
    hrefers, hslot, Option.bind_some]
  cases grammar.loadFrom? ⟨id, i⟩ with
  | some load => rfl
  | none =>
      cases node with
      | deferred mark part =>
          rw [reference?] at hnode
          simp only [showPlaceholder, hnode, Option.isSome_none, Bool.false_eq_true, if_false]
          rfl
      | blank | word | sequence | choice | scope => rfl

end Outline

namespace Language

open Outline

variable {language : Language} {id child : RuleId} {i : Nat} {free : FreeWord} {node : Outline}

theorem exists_unfold_freeWord (hkind : language.grammar.kind? child = some (.freeWord free))
    (scope : Option TypeId) (openBlock : Bool) (node : Outline) :
    ∃ unfolded, language.unfold scope openBlock (some child) node = some unfolded ∧
      unfolded.node = node.fillFree language.grammar child free := by
  rw [unfold, unfoldFuel, unfoldWithin]
  split
  all_goals simp_all [settled]

/-- A word of a sequence refers to a type exactly if a load behind it names the word and no other
load stands between the two.  So it refers to the type of the first load behind it that names it,
unless there is such a load with another load before it. -/
theorem unfold_reference?_iff
    (hkind : language.grammar.kind? child = some (.freeWord free))
    (htype : free.refersToType = false) (hname : free.isKnownName = false)
    (hslot : node.mark.slot = some ⟨id, i⟩) (hnode : node.reference? = none)
    (scope : Option TypeId) (openBlock : Bool) :
    ∃ unfolded, language.unfold scope openBlock (some child) node = some unfolded ∧
      (∀ reference, unfolded.node.reference? = some reference ↔
        ∃ j load, language.grammar.FirstFor id i j load ∧
          language.grammar.NoLoadBetween id i j ∧ load.Gives reference) ∧
      ((∀ reference, unfolded.node.reference? = some reference ↔
          ∃ j load, language.grammar.FirstFor id i j load ∧ load.Gives reference) ↔
        ∀ j load, language.grammar.FirstFor id i j load →
          language.grammar.NoLoadBetween id i j) := by
  obtain ⟨unfolded, hunfolded, hfill⟩ := exists_unfold_freeWord hkind scope openBlock node
  have hreference : ∀ reference, unfolded.node.reference? = some reference ↔
      ∃ j load, language.grammar.FirstFor id i j load ∧
        language.grammar.NoLoadBetween id i j ∧ load.Gives reference := by
    intro reference
    rw [hfill, reference?_fillFree htype hname hslot hnode, Option.map_eq_some_iff]
    simp only [Grammar.loadFrom?_eq_some_iff, TypeLoad.gives_iff]
    constructor
    · rintro ⟨load, ⟨j, hfirst, hbetween⟩, rfl⟩
      exact ⟨j, load, hfirst, hbetween, rfl⟩
    · rintro ⟨j, load, hfirst, hbetween, rfl⟩
      exact ⟨load, ⟨j, hfirst, hbetween⟩, rfl⟩
  refine ⟨unfolded, hunfolded, hreference, ?_⟩
  constructor
  · intro hfinds j load hfirst
    -- the word refers to this load, so it found it
    obtain ⟨j', load', hfirst', hbetween, -⟩ :=
      (hreference _).1 ((hfinds _).2 ⟨j, load, hfirst, TypeLoad.gives_iff.2 rfl⟩)
    exact hfirst.place_eq hfirst' ▸ hbetween
  · intro hbetween reference
    rw [hreference]
    constructor
    · rintro ⟨j, load, hfirst, -, hgives⟩
      exact ⟨j, load, hfirst, hgives⟩
    · rintro ⟨j, load, hfirst, hgives⟩
      exact ⟨j, load, hfirst, hbetween j load hfirst, hgives⟩

/-- `use` with two words, of which the second names a side and the first a platform: the load for
the second word stands before the one for the first. -/
def useLanguage : Language where
  grammar :=
    { rules := #[⟨.leaf (.literal "use"), none⟩, ⟨.freeWord { kind := "" }, none⟩,
        ⟨.freeWord { kind := "" }, none⟩, ⟨.typeLoad ⟨.load, ["side"], false, some 2⟩, none⟩,
        ⟨.typeLoad ⟨.load, ["platform", "$name"], false, some 1⟩, none⟩,
        ⟨.sequence [⟨0⟩, ⟨1⟩, ⟨2⟩, ⟨3⟩, ⟨4⟩] false false, none⟩]
      root := some ⟨5⟩ }

theorem loadAt_useLanguage {place : Nat} {load : TypeLoad} :
    useLanguage.grammar.LoadAt ⟨5⟩ place load ↔
      place = 3 ∧ load = ⟨.load, ["side"], false, some 2⟩ ∨
        place = 4 ∧ load = ⟨.load, ["platform", "$name"], false, some 1⟩ := by
  have hsequence : useLanguage.grammar.kind? ⟨5⟩ =
      some (.sequence [⟨0⟩, ⟨1⟩, ⟨2⟩, ⟨3⟩, ⟨4⟩] false false) := rfl
  rw [Grammar.loadAt_iff_of_kind hsequence]
  constructor
  · rintro ⟨child, hchild, hload⟩
    match place with
    | 0 | 1 | 2 => cases hchild; cases hload
    | 3 => cases hchild; cases hload; exact .inl ⟨rfl, rfl⟩
    | 4 => cases hchild; cases hload; exact .inr ⟨rfl, rfl⟩
    | place + 5 => cases hchild
  · rintro (⟨rfl, rfl⟩ | ⟨rfl, rfl⟩)
    · exact ⟨⟨3⟩, rfl, rfl⟩
    · exact ⟨⟨4⟩, rfl, rfl⟩

/-- The second word refers to a side. -/
theorem unfold_reference?_useLanguage :
    ∃ unfolded, useLanguage.unfold none false (some ⟨2⟩) (ofRule ⟨2⟩ (some ⟨⟨5⟩, 2⟩)) =
        some unfolded ∧
      ∀ reference, unfolded.node.reference? = some reference ↔
        reference = .type ["side"] false := by
  have hkind : useLanguage.grammar.kind? ⟨2⟩ = some (.freeWord { kind := "" }) := rfl
  have hslot : (ofRule ⟨2⟩ (some ⟨⟨5⟩, 2⟩)).mark.slot = some ⟨⟨5⟩, 2⟩ := rfl
  obtain ⟨unfolded, hunfolded, -, hagrees⟩ :=
    unfold_reference?_iff hkind rfl rfl hslot rfl none false
  refine ⟨unfolded, hunfolded, fun reference => ?_⟩
  have hplace : ∀ j load, useLanguage.grammar.FirstFor ⟨5⟩ 2 j load →
      j = 3 ∧ load = ⟨.load, ["side"], false, some 2⟩ := by
    rintro j load ⟨hload, -, hnames, -⟩
    obtain h | ⟨-, rfl⟩ := loadAt_useLanguage.1 hload
    · exact h
    · cases hnames
  have hgives : ∀ reference, (⟨.load, ["side"], false, some 2⟩ : TypeLoad).Gives reference ↔
      reference = .type ["side"] false := by
    intro reference
    rw [TypeLoad.gives_iff, show dropVariable ["side"] = ["side"] by decide +kernel]
  have hfirst : useLanguage.grammar.FirstFor ⟨5⟩ 2 3 ⟨.load, ["side"], false, some 2⟩ :=
    ⟨loadAt_useLanguage.2 (.inl ⟨rfl, rfl⟩), by decide, rfl, fun k _ hk hk' _ => by omega⟩
  have hbetween : ∀ j load, useLanguage.grammar.FirstFor ⟨5⟩ 2 j load →
      useLanguage.grammar.NoLoadBetween ⟨5⟩ 2 j := by
    intro j load h k _ hk hk'
    have hj := (hplace j load h).1
    omega
  rw [hagrees.2 hbetween reference]
  constructor
  · rintro ⟨j, load, h, hload⟩
    obtain ⟨-, rfl⟩ := hplace j load h
    exact (hgives reference).1 hload
  · intro hreference
    exact ⟨3, _, hfirst, (hgives reference).2 hreference⟩

/-- A word need not refer to the type of the first load behind it that names it: the first word
refers to nothing, because the load for the second word stands before its own. -/
theorem not_unfold_firstFor :
    ¬ ∀ (language : Language) (id child : RuleId) (children : List RuleId)
        (singleToken isError : Bool) (i : Nat) (free : FreeWord),
      language.grammar.kind? id = some (.sequence children singleToken isError) →
      children[i]? = some child → language.grammar.kind? child = some (.freeWord free) →
      free.refersToType = false → free.isKnownName = false →
      ∃ unfolded, language.unfold none false (some child) (ofRule child (some ⟨id, i⟩)) =
          some unfolded ∧
        ∀ reference, unfolded.node.reference? = some reference ↔
          ∃ j load, language.grammar.FirstFor id i j load ∧ load.Gives reference := by
  intro h
  obtain ⟨unfolded, hunfolded, hreference⟩ :=
    h useLanguage ⟨5⟩ ⟨1⟩ [⟨0⟩, ⟨1⟩, ⟨2⟩, ⟨3⟩, ⟨4⟩] false false 1 { kind := "" } rfl rfl rfl rfl rfl
  have hnothing : (useLanguage.unfold none false (some ⟨1⟩) (ofRule ⟨1⟩ (some ⟨⟨5⟩, 1⟩))).map
      (·.node.reference?) = some none := by decide
  rw [hunfolded, Option.map_some, Option.some_inj] at hnothing
  have hfirst : useLanguage.grammar.FirstFor ⟨5⟩ 1 4
      ⟨.load, ["platform", "$name"], false, some 1⟩ := by
    refine ⟨loadAt_useLanguage.2 (.inr ⟨rfl, rfl⟩), by decide, rfl, ?_⟩
    rintro k other - hk hother
    obtain ⟨-, rfl⟩ | ⟨rfl, -⟩ := loadAt_useLanguage.1 hother
    · decide
    · exact absurd hk (by decide)
  have hfound := (hreference (.type ["platform"] false)).2
    ⟨4, _, hfirst, .variable rfl (by decide +kernel)⟩
  rw [hnothing] at hfound
  cases hfound

end Language

end Typeahead
