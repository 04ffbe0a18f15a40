/-
Grammars with one more wrapper.

A wrapper stands for the rule it refers to.  So a grammar should mean the same if it gets one more
rule, a wrapper of a rule that is there, and names the wrapper in place of that rule in some places.
Undoing this in an outline only changes the rules of the parts that are put off; everything that is
read off an outline without unfolding it further stays the same.

Main definitions:

* `Typeahead.Grammar.AddsWrapper` — the grammar with one more wrapper;
* `Typeahead.Grammar.SameFinds` — the look-ups that do not see through wrappers find the same in both
  grammars;
* `Typeahead.Outline.mapRules` — the outline with other rules put off.

Main results:

* `Typeahead.Grammar.AddsWrapper.sameFinds` — the look-ups find the same if the wrapped rule is neither
  a block nor brings a type into play;
* `Typeahead.Outline.count_mapRules`, `Typeahead.Outline.retain_mapRules`,
  `Typeahead.Outline.offers_mapRules`, `Typeahead.Outline.shapes_mapRules` — what does not depend on
  the rules that are put off.
-/

import Typeahead.Completion

set_option relaxedAutoImplicit false
set_option autoImplicit false

namespace Typeahead

/-! ### One more wrapper -/

/-- The kind with every reference replaced. -/
def RuleKind.mapReferences (f : RuleId → RuleId) : RuleKind → RuleKind
  | .sequence children singleToken isError => .sequence (children.map f) singleToken isError
  | .choice branches => .choice (branches.map f)
  | .block body endKeyword => .block (body.map f) endKeyword
  | .wrapper wrapping target => .wrapper wrapping (target.map f)
  | kind => kind

/-- The rule with every reference replaced. -/
def Rule.mapReferences (f : RuleId → RuleId) (rule : Rule) : Rule :=
  { rule with kind := rule.kind.mapReferences f }

/-- The keyword that ends a block of this kind; only blocks have one. -/
def RuleKind.endKeyword? : RuleKind → Option String
  | .block _ endKeyword => some endKeyword
  | _ => none

/-- The type that a rule of this kind brings into play. -/
def RuleKind.load? : RuleKind → Option TypeLoad
  | .typeLoad load => some load
  | _ => none

theorem RuleKind.match_load? (kind : Option RuleKind) :
    (match kind with
      | some (.typeLoad load) => some load
      | _ => none) = kind.bind RuleKind.load? := by
  cases kind with
  | none => rfl
  | some kind => cases kind <;> rfl

theorem RuleKind.references_mapReferences (f : RuleId → RuleId) (kind : RuleKind) :
    (kind.mapReferences f).references = kind.references.map f := by
  cases kind with
  | block body => cases body <;> rfl
  | wrapper wrapping target => cases target <;> rfl
  | leaf | freeWord | sequence | choice | typeLoad | typeCommand | unknown => rfl

namespace Grammar

/-- The place of the next rule. -/
def next (grammar : Grammar) : RuleId := ⟨grammar.rules.size⟩

/-- The rule that is meant by a reference, if the next rule is a wrapper of `target`. -/
def unwrap (grammar : Grammar) (target id : RuleId) : RuleId :=
  if id = grammar.next then target else id

/-- The grammar `wrapped` has one more rule than `grammar`, a wrapper of the rule `target`, and may
name it in place of `target` wherever a rule or the root does. -/
structure AddsWrapper (grammar : Grammar) (target : RuleId) (wrapped : Grammar) : Prop where
  ne_next : target ≠ grammar.next
  rules : ∃ (rules : Array Rule) (context : Option String),
    wrapped.rules = rules.push ⟨.wrapper .reference (some target), context⟩ ∧
    rules.map (Rule.mapReferences (grammar.unwrap target)) = grammar.rules
  root : wrapped.root.map (grammar.unwrap target) = grammar.root

/-- The look-ups that go by the kind of a rule, and do not see through wrappers, find the same for
all places of sequences: the load that takes its type from a word, and the keyword that closes the
block a command opens. -/
structure SameFinds (grammar wrapped : Grammar) : Prop where
  loadFrom? : ∀ slot, wrapped.loadFrom? slot = grammar.loadFrom? slot
  closing? : ∀ slot, wrapped.closing? slot = grammar.closing? slot

variable {grammar wrapped : Grammar} {target id : RuleId}

theorem endKeyword?_eq (id : RuleId) :
    grammar.endKeyword? id = (grammar.kind? id).bind RuleKind.endKeyword? := by
  rw [endKeyword?]
  cases grammar.kind? id with
  | none => rfl
  | some kind => cases kind <;> rfl

theorem unwrap_next : grammar.unwrap target grammar.next = target := if_pos rfl

theorem unwrap_of_ne (h : id ≠ grammar.next) : grammar.unwrap target id = id := if_neg h

theorem kind?_next : grammar.kind? grammar.next = none := by
  simp [kind?, next]

namespace AddsWrapper

variable (h : grammar.AddsWrapper target wrapped)
include h

theorem size : wrapped.rules.size = grammar.rules.size + 1 := by
  obtain ⟨rules, context, hrules, hmap⟩ := h.rules
  rw [hrules, ← hmap, Array.size_push, Array.size_map]

theorem getElem?_next : ∃ context, wrapped.rules[grammar.next.index]? =
    some ⟨.wrapper .reference (some target), context⟩ := by
  obtain ⟨rules, context, hrules, hmap⟩ := h.rules
  refine ⟨context, ?_⟩
  simp [hrules, next, ← hmap]

theorem getElem?_of_ne (hid : id ≠ grammar.next) :
    wrapped.rules[id.index]?.map (Rule.mapReferences (grammar.unwrap target)) =
      grammar.rules[id.index]? := by
  obtain ⟨rules, context, hrules, hmap⟩ := h.rules
  have hindex : id.index ≠ rules.size := by
    intro hindex
    refine hid ?_
    rw [next, ← hmap, Array.size_map, ← hindex]
  rw [hrules, Array.getElem?_push, if_neg hindex, ← Array.getElem?_map, hmap]

theorem kind?_next : wrapped.kind? grammar.next = some (.wrapper .reference (some target)) := by
  obtain ⟨context, hrule⟩ := h.getElem?_next
  rw [kind?, hrule, Option.map_some]

theorem kind?_of_ne (hid : id ≠ grammar.next) :
    (wrapped.kind? id).map (RuleKind.mapReferences (grammar.unwrap target)) =
      grammar.kind? id := by
  rw [kind?, kind?, ← h.getElem?_of_ne hid, Option.map_map, Option.map_map]
  rfl

theorem displayName_of_ne (hid : id ≠ grammar.next) :
    wrapped.displayName id = grammar.displayName id := by
  rw [displayName, displayName, ← h.getElem?_of_ne hid]
  cases wrapped.rules[id.index]? <;> rfl

theorem width_le : grammar.width ≤ wrapped.width := by
  obtain ⟨rules, context, hrules, hmap⟩ := h.rules
  have hlengths : (fun rule : Rule => rule.kind.references.length) ∘
      Rule.mapReferences (grammar.unwrap target) = fun rule => rule.kind.references.length := by
    funext rule
    simp [Rule.mapReferences, RuleKind.references_mapReferences]
  rw [width, width, hrules, ← hmap, Array.toList_push, Array.toList_map, List.map_map, hlengths,
    List.map_append, List.foldl_append]
  exact Nat.le_max_left ..

/-! ### Look-ups that go by kind -/

/-- What is looked up by the kind of a rule is found through the wrapper, if there is nothing to be
found at the wrapped rule. -/
theorem bind_kind? {α : Type} {find : RuleKind → Option α}
    (hfind : ∀ kind, find (kind.mapReferences (grammar.unwrap target)) = find kind)
    (hwrapper : ∀ wrapping inner, find (.wrapper wrapping inner) = none)
    (htarget : (grammar.kind? target).bind find = none) (id : RuleId) :
    (wrapped.kind? id).bind find = (grammar.kind? (grammar.unwrap target id)).bind find := by
  by_cases hid : id = grammar.next
  · rw [hid, unwrap_next, h.kind?_next, htarget, Option.bind_some, hwrapper]
  · rw [unwrap_of_ne hid, ← h.kind?_of_ne hid]
    cases wrapped.kind? id with
    | none => rfl
    | some kind => exact (hfind kind).symm

theorem endKeyword? (htarget : (grammar.kind? target).bind RuleKind.endKeyword? = none)
    (id : RuleId) : wrapped.endKeyword? id = grammar.endKeyword? (grammar.unwrap target id) := by
  rw [endKeyword?_eq, endKeyword?_eq]
  refine h.bind_kind? ?_ (fun _ _ => rfl) htarget id
  intro kind
  cases kind <;> rfl

theorem loadAt? (htarget : (grammar.kind? target).bind RuleKind.load? = none) (id : RuleId) :
    (wrapped.kind? id).bind RuleKind.load? =
      (grammar.kind? (grammar.unwrap target id)).bind RuleKind.load? := by
  refine h.bind_kind? ?_ (fun _ _ => rfl) htarget id
  intro kind
  cases kind <;> rfl

theorem followingLoad? (htarget : (grammar.kind? target).bind RuleKind.load? = none)
    (slot : Slot) : wrapped.followingLoad? slot = grammar.followingLoad? slot := by
  by_cases hslot : slot.sequence = grammar.next
  · simp only [Grammar.followingLoad?, hslot, h.kind?_next, Grammar.kind?_next]
  · simp only [Grammar.followingLoad?, ← h.kind?_of_ne hslot]
    cases wrapped.kind? slot.sequence with
    | none => rfl
    | some kind =>
        cases kind with
        | sequence children singleToken isError =>
            simp only [Option.map_some, RuleKind.mapReferences, ← List.map_drop,
              List.findSome?_map, Function.comp_def]
            refine congrArg (List.findSome? · (children.drop (slot.index + 1))) (funext ?_)
            intro sibling
            have hsibling := h.loadAt? htarget sibling
            rw [← RuleKind.match_load?, ← RuleKind.match_load?] at hsibling
            exact hsibling
        | leaf | freeWord | choice | block | wrapper | typeLoad | typeCommand | unknown => rfl

theorem closing? (htarget : (grammar.kind? target).bind RuleKind.endKeyword? = none)
    (slot : Option Slot) : wrapped.closing? slot = grammar.closing? slot := by
  cases slot with
  | none => rfl
  | some slot =>
      simp only [Grammar.closing?]
      cases slot.index with
      | succ index => rfl
      | zero =>
          by_cases hslot : slot.sequence = grammar.next
          · simp only [hslot, h.kind?_next, Grammar.kind?_next]
          · simp only [← h.kind?_of_ne hslot]
            cases wrapped.kind? slot.sequence with
            | none => rfl
            | some kind =>
                cases kind with
                | sequence children singleToken isError =>
                    simp only [Option.map_some, RuleKind.mapReferences, List.length_map,
                      ← List.map_drop, List.findSome?_map, Function.comp_def,
                      h.endKeyword? htarget]
                | leaf | freeWord | choice | block | wrapper | typeLoad | typeCommand | unknown => rfl

/-- The look-ups find the same if the wrapped rule is neither a block nor brings a type into play. -/
theorem sameFinds (hblock : (grammar.kind? target).bind RuleKind.endKeyword? = none)
    (hload : (grammar.kind? target).bind RuleKind.load? = none) : grammar.SameFinds wrapped where
  loadFrom? slot := by rw [Grammar.loadFrom?, Grammar.loadFrom?, h.followingLoad? hload]
  closing? := h.closing? hblock

end AddsWrapper

end Grammar

namespace Outline

/-- The outline with every rule that is put off replaced. -/
def mapRules (f : RuleId → RuleId) : Outline → Outline
  | .blank mark => .blank mark
  | .word mark w => .word mark w
  | .deferred mark part => .deferred mark { part with rule := part.rule.map f }
  | .sequence mark info parts => .sequence mark info (parts.map (mapRules f))
  | .choice mark branches => .choice mark (branches.map (mapRules f))
  | .scope mark type => .scope mark type

variable {f : RuleId → RuleId}

@[simp] theorem mark_mapRules (outline : Outline) : (outline.mapRules f).mark = outline.mark := by
  cases outline <;> simp [mapRules, mark]

theorem sumCounts_map {parts : List Outline}
    (ih : ∀ part ∈ parts, (part.mapRules f).count = part.count) :
    sumCounts (parts.map (mapRules f)) = sumCounts parts := by
  induction parts with
  | nil => rfl
  | cons part parts ihparts =>
      have hrest := ihparts fun other hother => ih other (List.mem_cons_of_mem _ hother)
      simp only [List.map_cons, sumCounts, ih part (List.mem_cons_self ..), hrest]

theorem maxCounts_map {branches : List Outline}
    (ih : ∀ branch ∈ branches, (branch.mapRules f).count = branch.count) :
    maxCounts (branches.map (mapRules f)) = maxCounts branches := by
  induction branches with
  | nil => rfl
  | cons branch branches ihbranches =>
      have hrest := ihbranches fun other hother => ih other (List.mem_cons_of_mem _ hother)
      simp only [List.map_cons, maxCounts, ih branch (List.mem_cons_self ..), hrest]

@[simp] theorem count_mapRules (outline : Outline) :
    (outline.mapRules f).count = outline.count := by
  induction outline with
  | blank | word | deferred | scope => simp [mapRules, count]
  | sequence mark info parts ih => simp only [mapRules, count, sumCounts_map ih]
  | choice mark branches ih => simp only [mapRules, count, maxCounts_map ih]

/-! ### Pruning and reading -/

theorem retainBranches_map {query : Query} {branches : List Outline}
    (ih : ∀ branch ∈ branches, ∀ index, (branch.mapRules f).retain query index =
      ⟨(branch.retain query index).value.mapRules f, (branch.retain query index).stays⟩)
    (index : Nat) :
    retainBranches query index (branches.map (mapRules f)) =
      (retainBranches query index branches).map (mapRules f) := by
  induction branches with
  | nil => rfl
  | cons branch branches ihbranches =>
      have hrest := ihbranches fun other hother => ih other (List.mem_cons_of_mem _ hother)
      simp only [List.map_cons, retainBranches, ih branch (List.mem_cons_self ..), hrest]
      split <;> rfl

theorem retainParts_map {query : Query} {parts : List Outline}
    (ih : ∀ part ∈ parts, ∀ index, (part.mapRules f).retain query index =
      ⟨(part.retain query index).value.mapRules f, (part.retain query index).stays⟩)
    (index : Nat) :
    retainParts query index (parts.map (mapRules f)) =
      ⟨(retainParts query index parts).value.map (mapRules f),
        (retainParts query index parts).stays⟩ := by
  induction parts generalizing index with
  | nil => rfl
  | cons part parts ihparts =>
      have hrest := ihparts fun other hother => ih other (List.mem_cons_of_mem _ hother)
      simp only [List.map_cons, retainParts, ih part (List.mem_cons_self ..), count_mapRules, hrest]
      split
      · rfl
      · split <;> rfl

/-- Pruning does not look at the rules that are put off. -/
theorem retain_mapRules (query : Query) (index : Nat) (outline : Outline) :
    (outline.mapRules f).retain query index =
      ⟨(outline.retain query index).value.mapRules f, (outline.retain query index).stays⟩ := by
  induction outline generalizing index with
  | blank | word | deferred | scope => simp [mapRules, retain]
  | sequence mark info parts ih =>
      simp only [mapRules, retain, retainParts_map ih]
      split <;> simp only [mapRules]
  | choice mark branches ih =>
      simp only [mapRules, retain, retainBranches_map ih, List.isEmpty_map]
      split <;> simp only [mapRules]

theorem prune_mapRules (query : Query) (index : Nat) (outline : Outline) :
    (outline.mapRules f).prune query index = (outline.prune query index).map (mapRules f) := by
  simp only [prune, retain_mapRules]
  split <;> rfl

theorem branchOffers_map {grammar wrapped : Grammar} {branches : List Outline}
    (ih : ∀ branch ∈ branches, ∀ remaining,
      (branch.mapRules f).offers grammar remaining = branch.offers wrapped remaining)
    (remaining : Int) :
    branchOffers grammar remaining (branches.map (mapRules f)) =
      branchOffers wrapped remaining branches := by
  induction branches with
  | nil => rfl
  | cons branch branches ihbranches =>
      have hrest := ihbranches fun other hother => ih other (List.mem_cons_of_mem _ hother)
      simp only [List.map_cons, branchOffers, ih branch (List.mem_cons_self ..), hrest]

theorem partOffers_map {grammar wrapped : Grammar} {parts : List Outline}
    (ih : ∀ part ∈ parts, ∀ remaining,
      (part.mapRules f).offers grammar remaining = part.offers wrapped remaining)
    (remaining : Int) :
    partOffers grammar remaining (parts.map (mapRules f)) = partOffers wrapped remaining parts := by
  induction parts generalizing remaining with
  | nil => rfl
  | cons part parts ihparts =>
      have hrest := ihparts fun other hother => ih other (List.mem_cons_of_mem _ hother)
      simp only [List.map_cons, partOffers, ih part (List.mem_cons_self ..), count_mapRules, hrest]

/-- The same words are offered, as long as they open the same blocks. -/
theorem offers_mapRules {grammar wrapped : Grammar} (h : grammar.SameFinds wrapped)
    (remaining : Int) (outline : Outline) :
    (outline.mapRules f).offers grammar remaining = outline.offers wrapped remaining := by
  induction outline generalizing remaining with
  | blank | deferred | scope => simp [mapRules, offers]
  | word mark w => simp only [mapRules, offers, h.closing?]
  | sequence mark info parts ih => simp only [mapRules, offers, partOffers_map ih]
  | choice mark branches ih => simp only [mapRules, offers, branchOffers_map ih]

theorem branchShapes_map {cap : Nat} {branches : List Outline}
    (ih : ∀ branch ∈ branches, ∀ first, (branch.mapRules f).shapes cap first =
      branch.shapes cap first) (first : Bool) (previous : Option (List Hint)) :
    branchShapes cap first previous (branches.map (mapRules f)) =
      branchShapes cap first previous branches := by
  induction branches generalizing previous with
  | nil => rfl
  | cons branch branches ihbranches =>
      have hrest := ihbranches fun other hother => ih other (List.mem_cons_of_mem _ hother)
      simp only [List.map_cons, branchShapes, ih branch (List.mem_cons_self ..), hrest]

theorem partShapes_map {cap : Nat} {parts : List Outline}
    (ih : ∀ part ∈ parts, ∀ first, (part.mapRules f).shapes cap first = part.shapes cap first)
    (first : Bool) (joined : List Hint) :
    partShapes cap first joined (parts.map (mapRules f)) = partShapes cap first joined parts := by
  induction parts generalizing first joined with
  | nil => rfl
  | cons part parts ihparts =>
      have hrest := ihparts fun other hother => ih other (List.mem_cons_of_mem _ hother)
      simp only [List.map_cons, partShapes, ih part (List.mem_cons_self ..), hrest]

theorem shapes_mapRules (cap : Nat) (first : Bool) (outline : Outline) :
    (outline.mapRules f).shapes cap first = outline.shapes cap first := by
  induction outline generalizing first with
  | blank | word | deferred | scope => simp [mapRules, shapes]
  | sequence mark info parts ih => simp only [mapRules, shapes, partShapes_map ih]
  | choice mark branches ih => simp only [mapRules, shapes, branchShapes_map ih]

/-! ### Filling nodes -/

@[simp] theorem isDeferred_mapRules (node : Outline) :
    (node.mapRules f).isDeferred = node.isDeferred := by
  cases node <;> simp [mapRules, isDeferred]

@[simp] theorem reference?_mapRules (node : Outline) :
    (node.mapRules f).reference? = node.reference? := by
  cases node <;> simp [mapRules, reference?]

@[simp] theorem refersToType_mapRules (node : Outline) :
    (node.mapRules f).refersToType = node.refersToType := by
  rw [refersToType, refersToType, reference?_mapRules]

@[simp] theorem refersToName_mapRules (node : Outline) :
    (node.mapRules f).refersToName = node.refersToName := by
  rw [refersToName, refersToName, reference?_mapRules]

@[simp] theorem fill_mapRules (node : Outline) (w : Word) :
    (node.mapRules f).fill w = (node.fill w).mapRules f := by
  simp [fill, mapRules]

theorem refer_mapRules {id : RuleId} (hid : f id = id) (node : Outline) (reference : SymbolRef) :
    (node.mapRules f).refer (some id) reference = (node.refer (some id) reference).mapRules f := by
  cases node <;> simp [refer, mapRules, mark, hid]

section FillFree

variable {grammar wrapped : Grammar} {id : RuleId}

theorem tagByLoad_mapRules (h : grammar.SameFinds wrapped) (hid : f id = id) (node : Outline) :
    (node.mapRules f).tagByLoad grammar id = (node.tagByLoad wrapped id).mapRules f := by
  have hload : grammar.loadFrom? = wrapped.loadFrom? := funext fun slot => (h.loadFrom? slot).symm
  rw [tagByLoad, tagByLoad, refersToType_mapRules, mark_mapRules, hload]
  cases node.refersToType with
  | true => rfl
  | false =>
      cases node.mark.slot.bind wrapped.loadFrom? with
      | none => rfl
      | some load => exact refer_mapRules hid node _

theorem tagByKind_mapRules (hid : f id = id) (free : FreeWord) (node : Outline) :
    (node.mapRules f).tagByKind free id = (node.tagByKind free id).mapRules f := by
  simp only [tagByKind, refersToType_mapRules, referToType, refer_mapRules hid,
    apply_ite (mapRules f)]

theorem tagByName_mapRules (hid : f id = id) (free : FreeWord) (node : Outline) :
    (node.mapRules f).tagByName free id = (node.tagByName free id).mapRules f := by
  simp only [tagByName, refersToName_mapRules, refersToType_mapRules, referToName,
    refer_mapRules hid, apply_ite (mapRules f)]

theorem showPlaceholder_mapRules (placeholder : String) (node : Outline) :
    (node.mapRules f).showPlaceholder placeholder =
      (node.showPlaceholder placeholder).mapRules f := by
  cases node with
  | deferred mark part =>
      simp only [mapRules, showPlaceholder]
      split <;> simp [mapRules, fill, Outline.mark]
  | blank | word | sequence | choice | scope => simp [mapRules, showPlaceholder, fill, mark]

theorem fillFree_mapRules (h : grammar.SameFinds wrapped) (hid : f id = id) (free : FreeWord)
    (node : Outline) :
    (node.mapRules f).fillFree grammar id free = (node.fillFree wrapped id free).mapRules f := by
  simp only [fillFree, tagByLoad_mapRules h hid, tagByKind_mapRules hid, tagByName_mapRules hid,
    showPlaceholder_mapRules]

theorem taggedFree_mapRules (h : grammar.SameFinds wrapped) (hid : f id = id) (free : FreeWord)
    (node : Outline) :
    (node.mapRules f).taggedFree grammar id free = node.taggedFree wrapped id free := by
  have hload : grammar.loadFrom? = wrapped.loadFrom? := funext fun slot => (h.loadFrom? slot).symm
  simp only [taggedFree, tagByLoad_mapRules h hid, tagByKind_mapRules hid, refersToType_mapRules,
    refersToName_mapRules, mark_mapRules, hload]

end FillFree

end Outline

end Typeahead
