/-
Outlines: partly unfolded commands.

While a request is answered, the grammar is unfolded into an outline: which words may stand where,
with parts that are put off until they matter.  Each node carries a mark: the number of words it
takes up, once that is settled, and the place it has in the sequence rule it came from.

The number of words of a node is an integer, and a negative number means that it is not known yet.
A mark that is complete has the last word on the number; otherwise it is computed from the parts.

Main definitions:

* `Typeahead.Outline` — the tree;
* `Typeahead.Outline.count` — the number of words a node takes up, negative if unknown;
* `Typeahead.advance` — the place after a part that starts at a place and takes up some words;
* `Typeahead.Outline.fill` — puts a word into a node;
* `Typeahead.Outline.referToType`, `Typeahead.Outline.referToName` — put a reference off until
  names are listed.
-/

import Typeahead.Grammar.Basic
import Typeahead.Hint.Basic
import Typeahead.Types.SymbolTable

set_option relaxedAutoImplicit false
set_option autoImplicit false

namespace Typeahead

/-- The place of a part in the sequence rule it came from. -/
structure Slot where
  sequence : RuleId
  index : Nat
  deriving DecidableEq, Repr

/-- What a word refers to: a type under a path, looked up inside the current type when `nested`
is set, or a known name of a kind. -/
inductive SymbolRef where
  | type (path : TypePath) (nested : Bool)
  | name (kind : String)
  deriving DecidableEq, Repr

/-- A word of an outline.  A pattern such as `<integer>` stands for any word, and the block word
stands for a block of further commands. -/
structure Word where
  text : String
  isPattern : Bool := false
  isBlock : Bool := false
  deriving DecidableEq, Repr

/-- A pattern, which stands for any word. -/
def Word.pattern (text : String) : Word := { text, isPattern := true }

/-- A word that stands for itself. -/
def Word.literal (text : String) : Word := { text }

/-- The word for a block of further commands. -/
def Word.block : Word := { text := blockText, isBlock := true }

/-- The number of words of a node whose extent is not known. -/
def unknownCount : Int := -1

/-- What is settled about a node. -/
structure Mark where
  wordCount : Int := unknownCount
  /-- Whether the node is unfolded to the end, so that `wordCount` holds. -/
  complete : Bool := false
  slot : Option Slot := none
  deriving DecidableEq, Repr

/-- The mark of a node that is complete with `count` words. -/
def Mark.settle (mark : Mark) (count : Int) : Mark :=
  { mark with wordCount := count, complete := true }

/-- A part that is put off: a rule to unfold, or a reference whose names may have to be listed.
The placeholder is what shows in place of the names. -/
structure Deferred where
  rule : Option RuleId := none
  reference : Option SymbolRef := none
  placeholder : String := ""
  deriving DecidableEq, Repr

/-- Where a sequence came from, and how it shows as a single placeholder. -/
structure SequenceInfo where
  rule : Option RuleId := none
  name : String := ""
  singleToken : Bool := false
  deriving DecidableEq, Repr

/-- A partly unfolded command. -/
inductive Outline where
  /-- Nothing. -/
  | blank (mark : Mark)
  /-- One word. -/
  | word (mark : Mark) (word : Word)
  /-- A part that is put off. -/
  | deferred (mark : Mark) (part : Deferred)
  /-- Parts one after another. -/
  | sequence (mark : Mark) (info : SequenceInfo) (parts : List Outline)
  /-- One of several branches. -/
  | choice (mark : Mark) (branches : List Outline)
  /-- From here on another type is current. -/
  | scope (mark : Mark) (type : Option TypeId)
  deriving Repr

instance : Inhabited Outline := ⟨.blank {}⟩

/-- Induction over an outline, with the claim for all parts or branches of a node at hand. -/
@[induction_eliminator]
theorem Outline.induction {motive : Outline → Prop}
    (blank : ∀ mark, motive (.blank mark))
    (word : ∀ mark word, motive (.word mark word))
    (deferred : ∀ mark part, motive (.deferred mark part))
    (sequence : ∀ mark info parts, (∀ part ∈ parts, motive part) →
      motive (.sequence mark info parts))
    (choice : ∀ mark branches, (∀ branch ∈ branches, motive branch) →
      motive (.choice mark branches))
    (scope : ∀ mark type, motive (.scope mark type)) (outline : Outline) : motive outline :=
  Outline.rec blank word deferred sequence choice scope (fun _ h => nomatch h)
    (fun _ _ hhead htail _ h => (List.mem_cons.1 h).elim (fun heq => heq ▸ hhead) (htail _))
    outline

/-- The place reached from `index` over `count` words; unknown as soon as either is. -/
def advance (index count : Int) : Int :=
  if index < 0 ∨ count < 0 then unknownCount else index + count

theorem advance_of_nonneg {index count : Int} (hi : 0 ≤ index) (hc : 0 ≤ count) :
    advance index count = index + count := by
  rw [advance, if_neg (by omega)]

theorem nonneg_of_advance_nonneg {index count : Int} (h : 0 ≤ advance index count) :
    0 ≤ index ∧ 0 ≤ count := by
  unfold advance unknownCount at h
  split at h <;> omega

namespace Outline

/-- The mark of a node. -/
def mark : Outline → Mark
  | blank mark | word mark _ | deferred mark _ | sequence mark _ _ | choice mark _
  | scope mark _ => mark

/-- The parts or branches of a node. -/
def children : Outline → List Outline
  | sequence _ _ parts => parts
  | choice _ branches => branches
  | _ => []

/-- Whether the node is put off. -/
def isDeferred : Outline → Bool
  | deferred _ _ => true
  | _ => false

/-- The reference that is put off at the node. -/
def reference? : Outline → Option SymbolRef
  | deferred _ part => part.reference
  | _ => none

/-- Whether a reference to a type is put off at the node. -/
def refersToType (outline : Outline) : Bool :=
  match outline.reference? with
  | some (.type _ _) => true
  | _ => false

/-- Whether a reference to a known name is put off at the node. -/
def refersToName (outline : Outline) : Bool :=
  match outline.reference? with
  | some (.name _) => true
  | _ => false

/-! ### Word counts -/

mutual

/-- The number of words a node takes up: the settled one if the node is complete, and otherwise
the sum over the parts or the greatest over the branches.  A negative number means unknown. -/
def count : Outline → Int
  | word mark _ => if mark.complete then mark.wordCount else 1
  | sequence mark _ parts => if mark.complete then mark.wordCount else sumCounts parts
  | choice mark branches => if mark.complete then mark.wordCount else maxCounts branches
  | blank mark | deferred mark _ | scope mark _ =>
      if mark.complete then mark.wordCount else unknownCount

/-- The sum of the counts, or the first one that is unknown. -/
def sumCounts : List Outline → Int
  | [] => 0
  | part :: parts =>
      let first := part.count
      let rest := sumCounts parts
      if first < 0 then first else if rest < 0 then rest else first + rest

/-- The greatest of the counts, or the first one that is unknown. -/
def maxCounts : List Outline → Int
  | [] => 0
  | branch :: branches =>
      let first := branch.count
      let rest := maxCounts branches
      if first < 0 then first else if rest < 0 then rest else max first rest

end

theorem count_of_complete {outline : Outline} (h : outline.mark.complete = true) :
    outline.count = outline.mark.wordCount := by
  cases outline <;> simp_all [mark, count]

/-! ### Filling nodes -/

/-- Puts a word into a node: the node is then complete with one word. -/
def fill (outline : Outline) (word : Word) : Outline := .word (outline.mark.settle 1) word

/-- A single word on its own. -/
def ofWord (word : Word) : Outline := (blank {}).fill word

/-- A rule that is put off, at its place in a sequence. -/
def ofRule (rule : RuleId) (slot : Option Slot) : Outline :=
  deferred { slot } { rule := some rule }

/-- Puts a reference off at a node.  The node keeps its placeholder and counts as one word that is
not settled. -/
def refer (outline : Outline) (rule : Option RuleId) (reference : SymbolRef) : Outline :=
  let placeholder := match outline with
    | deferred _ part => part.placeholder
    | _ => ""
  deferred { outline.mark with wordCount := 1, complete := false }
    { rule, reference := some reference, placeholder }

/-- Leaves out a last name that starts with a dollar sign: it is a variable, not a kind. -/
def dropVariable (path : TypePath) : TypePath :=
  if path.getLast?.any (·.startsWith "$") then path.dropLast else path

/-- Puts a reference to a type off. -/
def referToType (outline : Outline) (rule : Option RuleId) (path : TypePath) (nested : Bool) :
    Outline :=
  outline.refer rule (.type (dropVariable path) nested)

/-- Puts a reference to a known name off.  Where a type is referred to already, the name's kind
takes the place of its path. -/
def referToName (outline : Outline) (rule : Option RuleId) (kind : String) : Outline :=
  outline.refer rule (if outline.refersToType then .type [kind] false else .name kind)

end Outline

end Typeahead
