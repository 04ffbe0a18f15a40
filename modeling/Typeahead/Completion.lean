/-
Answering requests.

A request is answered in passes.  The grammar is first unfolded into a seed, one branch for each
block around the cursor that shows through; then the outline is grown by one level and pruned,
again and again, until a pass unfolds nothing more.  The words at the cursor are read off as
suggestions, or the whole outline as hints.

A grammar that reaches itself again without taking up a word grows for ever, so the number of
passes is bounded by a budget, and there is no answer beyond it.

Main definitions:

* `Typeahead.Request`, `Typeahead.Completion`, `Typeahead.CommandHint` — what goes in and comes
  out;
* `Typeahead.Language.seed` — the outline to start from;
* `Typeahead.Language.settleWithin`, `Typeahead.Language.settle` — the passes;
* `Typeahead.Language.suggest`, `Typeahead.Language.hint` — the two answers.
-/

import Typeahead.Files.Include
import Typeahead.Outline.Grow
import Typeahead.Outline.Offers
import Typeahead.Outline.Prune
import Typeahead.Outline.Shapes
import Typeahead.Query.Reading

set_option relaxedAutoImplicit false
set_option autoImplicit false

namespace Typeahead

/-- A line of text with the cursor in it, the blocks around it from the innermost outwards, and
the type that is current there. -/
structure Request where
  text : String
  cursor : Nat
  blocks : List RuleId := []
  scope : Option TypeId := none
  deriving DecidableEq, Repr

/-- A request with the cursor at the end of the text. -/
def Request.atEnd (text : String) (blocks : List RuleId) (scope : Option TypeId) : Request :=
  { text, cursor := Text.byteLength text.toList, blocks, scope }

/-- The words offered at the cursor, and what an accepted one replaces. -/
structure Completion where
  suggestions : List String := []
  /-- The byte offset of the text to replace. -/
  insertPosition : Nat := 0
  /-- The number of bytes to replace. -/
  replaceLength : Nat := 0
  /-- Whether no word follows the one at the cursor. -/
  lastToken : Bool := true
  /-- Whether typing may go on inside the word. -/
  partialToken : Bool := false
  deriving DecidableEq, Repr

/-- The shapes that the command at the cursor may take. -/
structure CommandHint where
  activeWord : Nat
  /-- The number of words before the first block of further commands. -/
  concreteWords : Nat := 0
  hints : List Hint := []
  deriving DecidableEq, Repr

/-- Whether the cursor is at one of the words before the first block. -/
def CommandHint.withinConcrete (hint : CommandHint) : Bool :=
  decide (hint.activeWord ≤ hint.concreteWords)

/-- The greatest number of references in one rule. -/
def Grammar.width (grammar : Grammar) : Nat :=
  (grammar.rules.toList.map fun rule => rule.kind.references.length).foldl max 0

/-- The command word itself gets no hint: what may follow it is shown instead. -/
def Query.pastCommand (query : Query) : Query :=
  if query.active = 0 then
    { query with
      words := if query.words.length = 1 then query.words ++ [""] else query.words
      active := 1 }
  else query

namespace Language

/-! ### The seed -/

/-- Offers the keyword that ends a block beside its commands. -/
def offerKeyword (node : Outline) (keyword : String) : Outline :=
  let ending := Outline.ofWord (.literal keyword)
  match node with
  | .choice mark branches => .choice mark (branches ++ [ending])
  | node => .choice {} [node, ending]

/-- The commands of a block, with the keyword that ends it. -/
def blockNode (language : Language) (scope : Option TypeId) (block : Option RuleId) :
    Option Outline :=
  (language.unfold scope true block (.blank {})).map fun unfolded =>
    match (block.bind language.grammar.endKeyword?).filter fun keyword => !keyword.isEmpty with
    | some keyword => offerKeyword unfolded.node keyword
    | none => unfolded.node

/-- Whether the commands of the block around this one show through. -/
def isTransparent (language : Language) (block : Option RuleId) : Bool :=
  block.bind language.grammar.endKeyword? == some ""

/-- The branches of the seed: one for each block up to the first that hides those around it. -/
def seedBranches (language : Language) (query : Query) (scope : Option TypeId) :
    List (Option RuleId) → Option (List Outline)
  | [] => some []
  | block :: blocks =>
      (language.blockNode scope block).bind fun node =>
        let kept := (node.prune query 0).toList
        if language.isTransparent block then
          (seedBranches language query scope blocks).map (kept ++ ·)
        else some kept

/-- The blocks to start from: those around the cursor, or the root outside all blocks. -/
def seedBlocks (language : Language) (blocks : List RuleId) : List (Option RuleId) :=
  if blocks.isEmpty then [language.grammar.root] else blocks.map some

/-- The outline to start from. -/
def seed (language : Language) (query : Query) (scope : Option TypeId) (blocks : List RuleId) :
    Option Outline :=
  (language.seedBranches query scope (language.seedBlocks blocks)).map (.choice {} ·)

/-! ### The passes -/

/-- Grows and prunes an outline until a pass unfolds nothing, in at most `passes` passes.  The
outcome is the outline, or nothing if every branch was ruled out. -/
def settleWithin (language : Language) (query : Query) (scope : Option TypeId) (limit : Int) :
    Nat → Outline → Option (Option Outline)
  | 0, _ => none
  | passes + 1, outline =>
      (language.grow query limit scope 0 outline).bind fun growth =>
        match growth.node.prune query 0 with
        | none => some none
        | some pruned =>
            if growth.grew then settleWithin language query scope limit passes pruned
            else some (some pruned)

/-- The number of passes allowed.  Without recursion, every pass unfolds a part that no later pass
unfolds again, and a tree of rules has at most as many parts as the power says; with recursion at
the end of sequences, every pass brings each rule one word further, or one type further where the
commands of a type lead to those of the types inside it. -/
def passBudget (language : Language) (query : Query) (blocks : List RuleId) (limit : Int) : Nat :=
  let rules := language.grammar.rules.size
  let reach := limit.toNat + query.words.length + 2
  2 * (blocks.length + 1) *
    (Nat.pow (language.grammar.width + 2) (rules + 2) +
      (rules + 1) * (language.types.types.size + 1) * reach)

/-- The outline of everything that agrees with the query, unfolded up to place `limit`. -/
def settle (language : Language) (query : Query) (scope : Option TypeId) (blocks : List RuleId)
    (limit : Int) : Option (Option Outline) :=
  (language.seed query scope blocks).bind
    (language.settleWithin query scope limit (language.passBudget query blocks limit))

/-! ### Answers -/

/-- The words that may stand at the cursor.  After an include command these are paths. -/
def suggest (language : Language) (files : FileTree) (request : Request) : Option Completion :=
  let commands := language.settings.includeCommands
  let reading := Reading.ofText request.text request.cursor .suggest commands
  let query := reading.query
  let answer : Completion :=
    { insertPosition := reading.span.start, replaceLength := reading.span.length }
  if query.isInclude commands then
    let found := Include.offers files language.settings (query.words[1]?.getD "")
    some { answer with suggestions := found.suggestions, partialToken := found.partialToken }
  else
    (language.settle query request.scope request.blocks query.words.length).map fun
      | none => answer
      | some outline =>
          let offers := outline.offers language.grammar query.active
          { answer with suggestions := Ranking.rank offers.texts, lastToken := !offers.more }

/-- The shapes that the command at the cursor may take. -/
def hint (language : Language) (request : Request) : Option CommandHint :=
  let settings := language.settings
  let query := (Reading.ofText request.text request.cursor .hint settings.includeCommands).query
  let answer : CommandHint := { activeWord := query.active }
  (language.settle query.pastCommand request.scope request.blocks settings.maxHintWords).map fun
    | none => answer
    | some outline =>
        let hints := Hint.sorted (outline.shapes settings.maxHints true)
        { answer with concreteWords := Hint.concreteCount hints, hints }

end Language

end Typeahead
