/-
Unfolding a rule into an outline.

A rule is unfolded until it shows its first word: of a sequence only the first part is unfolded
and the others are put off, of a choice every branch.  A rule that reaches itself again without a
word in between would unfold for ever; the depth of unfolding is bounded by fuel, and a rule that
needs more gives no outline.  Twice the number of rules is fuel enough, because on a longer way
down some rule comes up twice in the same situation.

Main definitions:

* `Typeahead.Language.unfoldWithin` — unfolds a rule into a node, to a bounded depth;
* `Typeahead.Language.unfold` — unfolds a rule into a node.
-/

import Typeahead.Language

set_option relaxedAutoImplicit false
set_option autoImplicit false

namespace Typeahead

/-! ### Words for leaf rules -/

/-- A name between angle brackets. -/
def angled (name : String) : String := "<" ++ name ++ ">"

/-- The pattern shown for a quoted text: a file of some kind, any file, or any text. -/
def quotedPattern (isFile : Bool) (fileKind : Option String) : String :=
  match isFile, fileKind with
  | true, some kind => if kind.isEmpty then angled "file-path" else angled (kind ++ "-file")
  | true, none => angled "file-path"
  | false, _ => angled "string"

/-- The word of a leaf that is shown under the given name. -/
def Leaf.word (name : String) : Leaf → Word
  | .real => .pattern (angled "real")
  | .integer => .pattern (angled "integer")
  | .lineString => .pattern (angled "line-string")
  | .quoted isFile fileKind => .pattern (quotedPattern isFile fileKind)
  | .literal text => .literal text
  | .delimited => .pattern (angled name)

/-- The pattern shown for a word the user is free to choose. -/
def FreeWord.placeholder (free : FreeWord) : String :=
  if free.namesType then angled (free.kind ++ "-name")
  else if free.kind.isEmpty then angled "string"
  else angled free.kind

/-- The first rule that brings a type into play after a slot of a sequence. -/
def Grammar.followingLoad? (grammar : Grammar) (slot : Slot) : Option TypeLoad :=
  match grammar.kind? slot.sequence with
  | some (.sequence children _ _) =>
      (children.drop (slot.index + 1)).findSome? fun sibling =>
        match grammar.kind? sibling with
        | some (.typeLoad load) => some load
        | _ => none
  | _ => none

/-- The load that takes its type from the word at a slot, if the next load does. -/
def Grammar.loadFrom? (grammar : Grammar) (slot : Slot) : Option TypeLoad :=
  (grammar.followingLoad? slot).filter fun load => load.ordinal == some slot.index

namespace Outline

/-- Refers to the type that a later load of the same sequence takes from this word. -/
def tagByLoad (grammar : Grammar) (rule : RuleId) (node : Outline) : Outline :=
  match node.refersToType, node.mark.slot.bind grammar.loadFrom? with
  | false, some load => node.referToType (some rule) load.path load.nested
  | _, _ => node

/-- Refers to a type of the word's kind, if the word is to name one and does not refer to a type
yet. -/
def tagByKind (free : FreeWord) (rule : RuleId) (node : Outline) : Outline :=
  if free.refersToType && !node.refersToType && !free.kind.isEmpty then
    node.referToType (some rule) [free.kind] (free.kind.startsWith ".")
  else node

/-- Refers to a known name of the word's kind, if the word is to be one and does not refer to a
name yet. -/
def tagByName (free : FreeWord) (rule : RuleId) (node : Outline) : Outline :=
  if free.isKnownName && !free.kind.isEmpty && !node.refersToName then
    node.referToName (some rule) free.kind
  else node

/-- Shows a placeholder: beside the reference that is put off at the node, or as a pattern. -/
def showPlaceholder (placeholder : String) : Outline → Outline
  | deferred mark part =>
      if part.reference.isSome then deferred mark { part with placeholder }
      else (deferred mark part).fill (.pattern placeholder)
  | node => node.fill (.pattern placeholder)

/-- Puts a freely chosen word into a node: as a reference if it refers to something, and as a
pattern otherwise. -/
def fillFree (grammar : Grammar) (rule : RuleId) (free : FreeWord) (node : Outline) : Outline :=
  (((node.tagByLoad grammar rule).tagByKind free rule).tagByName free rule).showPlaceholder
    free.placeholder

/-- Whether `fillFree` put a new reference into the node. -/
def taggedFree (grammar : Grammar) (rule : RuleId) (free : FreeWord) (node : Outline) : Bool :=
  let loaded := node.tagByLoad grammar rule
  let kinded := loaded.tagByKind free rule
  (!node.refersToType && (node.mark.slot.bind grammar.loadFrom?).isSome) ||
    (free.refersToType && !loaded.refersToType && !free.kind.isEmpty) ||
    (free.isKnownName && !free.kind.isEmpty && !kinded.refersToName)

end Outline

/-! ### Unfolding -/

/-- A node after a rule was unfolded into it, and whether that made a difference. -/
structure Unfolded where
  node : Outline
  grew : Bool
  deriving Repr

namespace Language

/-- A node whose unfolding ends here: it made a difference unless the node is still put off. -/
def settled (node : Outline) (grew : Bool) : Unfolded := ⟨node, grew || !node.isDeferred⟩

/-- The parts of a sequence after the first one, all put off. -/
def deferRest (rule : RuleId) (children : List RuleId) : List Outline :=
  (children.zipIdx 1).map fun entry => .ofRule entry.1 (some ⟨rule, entry.2⟩)

/-- Unfolds a rule into a node, at most `fuel` rules deep.  `openBlock` shows the commands inside
a block instead of the word for it.  A rule that is missing leaves the node as it is. -/
def unfoldWithin (language : Language) :
    Nat → Option TypeId → Bool → Option RuleId → Outline → Option Unfolded
  | 0, _, _, _, _ => none
  | _ + 1, _, _, none, node => some ⟨node, false⟩
  | fuel + 1, scope, openBlock, some id, node =>
      match language.grammar.kind? id with
      | none => some ⟨node, false⟩
      | some (.leaf leaf) =>
          some (settled (node.fill (leaf.word (language.grammar.displayName id))) false)
      | some (.freeWord free) =>
          some (settled (node.fillFree language.grammar id free)
            (node.taggedFree language.grammar id free))
      | some (.sequence children singleToken isError) =>
          if isError then some (settled node false)
          else
            let info : SequenceInfo :=
              { rule := some id, name := language.grammar.displayName id, singleToken }
            match children with
            | [] => some (settled (.sequence node.mark info []) false)
            | first :: rest =>
                (unfoldWithin language fuel scope false (some first)
                  (.blank { slot := some ⟨id, 0⟩ })).map fun head =>
                    settled (.sequence node.mark info (head.node :: deferRest id rest)) true
      | some (.choice branches) =>
          (branches.mapM fun branch =>
            unfoldWithin language fuel scope false (some branch) (.blank {})).map fun unfolded =>
              settled (.choice node.mark (unfolded.map Unfolded.node)) false
      | some (.block body _) =>
          if openBlock then unfoldWithin language fuel scope true body node
          else some (settled (.sequence node.mark {} [.ofWord .block]) false)
      | some (.wrapper _ target) => unfoldWithin language fuel scope openBlock target node
      | some (.typeLoad load) =>
          match scope with
          | some current =>
              if load.operation == .load && load.nested && load.ordinal.isNone then
                some (settled (.scope (node.mark.settle 0)
                  (language.types.findNested? current load.path)) false)
              else some (settled node false)
          | none => some (settled node false)
      | some .typeCommand =>
          match scope.bind language.types.rule? with
          | some rule =>
              if language.settings.expandTypeCommands then
                (unfoldWithin language fuel scope false (some rule) node).map fun unfolded =>
                  settled unfolded.node unfolded.grew
              else some (settled node false)
          | none => some (settled node false)
      | some (.unknown _) => some (settled node false)

/-- The depth that unfolding needs at most if it ends at all: each rule may come up once with
blocks open and once with blocks closed, before a last reference to a missing rule. -/
def unfoldFuel (language : Language) : Nat := 2 * language.grammar.rules.size + 1

/-- Unfolds a rule into a node; there is no outcome if the rule reaches itself again without a
word in between. -/
def unfold (language : Language) (scope : Option TypeId) (openBlock : Bool)
    (rule : Option RuleId) (node : Outline) : Option Unfolded :=
  language.unfoldWithin language.unfoldFuel scope openBlock rule node

end Language

end Typeahead
