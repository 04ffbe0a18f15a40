/-
Grammars of a command language.

A grammar is a table of rules; a rule refers to another by its place in the table, so rules may be
recursive.  A reference may point outside the table: every look-up copes with that, and
`Grammar.validate` reports the first one.

Main definitions:

* `Typeahead.Leaf`, `Typeahead.RuleKind` — what a rule describes;
* `Typeahead.Grammar` — the table of rules and its root;
* `Typeahead.RuleKind.references` — the rules a rule refers to;
* `Typeahead.Grammar.validate` — the root and all references lie inside the table.

Main results:

* `Typeahead.Grammar.validate_eq_ok_iff` — a grammar is valid exactly when its root and all its
  references lie inside the table.
-/

set_option relaxedAutoImplicit false
set_option autoImplicit false

namespace Typeahead

/-- The place of a rule in its grammar. -/
structure RuleId where
  index : Nat
  deriving DecidableEq, Repr

/-- The names that lead to a type, outermost first. -/
abbrev TypePath := List String

/-- A word the user is free to choose.  Its kind says what the word names, and the three flags
say how: it refers to a type of that kind, it is a known name of that kind, or it gives a new type
of that kind its name. -/
structure FreeWord where
  kind : String
  refersToType : Bool := false
  isKnownName : Bool := false
  namesType : Bool := false
  deriving DecidableEq, Repr

/-- What is done with a type while a command is read. -/
inductive TypeOperation where
  | load
  | create
  | delete
  deriving DecidableEq, Repr

/-- Brings a type into play: the one found under `path`, looked up inside the current type when
`nested` is set.  With an ordinal, the word at that place of the command names the type. -/
structure TypeLoad where
  operation : TypeOperation
  path : TypePath
  nested : Bool
  ordinal : Option Nat
  deriving DecidableEq, Repr

/-- The reasons to put one rule in place of another. -/
inductive Wrapping where
  | reference
  | named
  | struct
  | value
  deriving DecidableEq, Repr

/-- The rules that always describe one word. -/
inductive Leaf where
  /-- A number with a fraction. -/
  | real
  /-- A whole number. -/
  | integer
  /-- The rest of the line. -/
  | lineString
  /-- A quoted text, which may name a file of some kind. -/
  | quoted (isFile : Bool) (fileKind : Option String)
  /-- A fixed word. -/
  | literal (text : String)
  /-- A text between two marks. -/
  | delimited
  deriving DecidableEq, Repr

/-- What a rule describes. -/
inductive RuleKind where
  /-- A single word. -/
  | leaf (leaf : Leaf)
  /-- A word the user is free to choose. -/
  | freeWord (free : FreeWord)
  /-- Parts one after another.  `singleToken` shows the whole as one placeholder, and
  `isError` marks a sequence that only serves to report a mistake. -/
  | sequence (children : List RuleId) (singleToken isError : Bool)
  /-- One of several branches. -/
  | choice (branches : List RuleId)
  /-- A block of commands up to an end keyword. -/
  | block (body : Option RuleId) (endKeyword : String)
  /-- Another rule, under another name. -/
  | wrapper (wrapping : Wrapping) (target : Option RuleId)
  /-- Brings a type into play and takes up no word. -/
  | typeLoad (load : TypeLoad)
  /-- The commands of the current type. -/
  | typeCommand
  /-- Something nothing is known about. -/
  | unknown (label : String)
  deriving DecidableEq, Repr

/-- The rules that a rule refers to, in the order it names them. -/
def RuleKind.references : RuleKind → List RuleId
  | .sequence children _ _ => children
  | .choice branches => branches
  | .block body _ => body.toList
  | .wrapper _ target => target.toList
  | _ => []

/-- A rule and the name it goes by, if it has one. -/
structure Rule where
  kind : RuleKind
  context : Option String := none
  deriving DecidableEq, Repr

/-- The name shown for a rule. -/
def Rule.displayName (rule : Rule) : String := rule.context.getD "rule"

/-- A table of rules, and the rule that describes a whole command. -/
structure Grammar where
  rules : Array Rule := #[]
  root : Option RuleId := none
  deriving DecidableEq, Repr

/-- What makes a grammar unusable. -/
inductive GrammarError where
  /-- Rule `source` refers to `target`, which is not in the table. -/
  | danglingRule (source target : RuleId)
  /-- The grammar has no root. -/
  | missingRoot
  deriving DecidableEq, Repr

/-- The text shown to the user. -/
def GrammarError.message : GrammarError → String
  | .danglingRule source target =>
      "rule " ++ toString source.index ++ " refers to missing rule " ++ toString target.index
  | .missingRoot => "grammar has no root rule"

namespace Grammar

/-- What the rule at a place describes, if there is one. -/
def kind? (grammar : Grammar) (id : RuleId) : Option RuleKind :=
  grammar.rules[id.index]?.map Rule.kind

/-- The name shown for the rule at a place, also where there is none. -/
def displayName (grammar : Grammar) (id : RuleId) : String :=
  match grammar.rules[id.index]? with
  | some rule => rule.displayName
  | none => "rule"

/-- The keyword that ends a block; only blocks have one. -/
def endKeyword? (grammar : Grammar) (id : RuleId) : Option String :=
  match grammar.kind? id with
  | some (.block _ endKeyword) => some endKeyword
  | _ => none

/-- The references of the whole table, each with the rule it stands in, in table order. -/
def allReferences (grammar : Grammar) : List (RuleId × RuleId) :=
  grammar.rules.toList.zipIdx.flatMap fun entry =>
    entry.1.kind.references.map fun target => (⟨entry.2⟩, target)

/-- Reports the first reference that leaves the table, the root before all others. -/
def validate (grammar : Grammar) : Except GrammarError Unit :=
  match grammar.root with
  | none => .error .missingRoot
  | some root =>
      if grammar.rules.size ≤ root.index then .error (.danglingRule root root)
      else
        match grammar.allReferences.find? fun entry => grammar.rules.size ≤ entry.2.index with
        | some (source, target) => .error (.danglingRule source target)
        | none => .ok ()

theorem mem_allReferences {grammar : Grammar} {source target : RuleId} :
    (source, target) ∈ grammar.allReferences ↔
      ∃ kind, grammar.kind? source = some kind ∧ target ∈ kind.references := by
  simp only [allReferences, List.mem_flatMap, List.mem_map, Prod.mk.injEq, Prod.exists, kind?,
    Option.map_eq_some_iff]
  constructor
  · rintro ⟨rule, id, hmem, referred, hto, rfl, rfl⟩
    have h := List.mk_mem_zipIdx_iff_getElem?.1 hmem
    exact ⟨rule.kind, ⟨rule, by simpa using h, rfl⟩, hto⟩
  · rintro ⟨_, ⟨rule, hrule, rfl⟩, hto⟩
    exact ⟨rule, source.index, List.mk_mem_zipIdx_iff_getElem?.2 (by simpa using hrule), target, hto,
      rfl, rfl⟩

/-- A grammar is valid exactly when its root and all its references lie inside the table. -/
theorem validate_eq_ok_iff (grammar : Grammar) :
    grammar.validate = .ok () ↔
      (∃ root, grammar.root = some root ∧ root.index < grammar.rules.size) ∧
        ∀ source kind, grammar.kind? source = some kind →
          ∀ target ∈ kind.references, target.index < grammar.rules.size := by
  rw [validate]
  split
  · next h => simp [h]
  · next root h =>
      split
      · next hr =>
          simp only [h, Option.some.injEq, reduceCtorEq, false_iff, not_and]
          rintro ⟨_, rfl, hlt⟩
          omega
      · next hr =>
          split
          · next source target hfind =>
              have hmem := List.mem_of_find?_eq_some hfind
              have hbad := List.find?_some hfind
              obtain ⟨kind, hkind, hto⟩ := mem_allReferences.1 hmem
              simp only [reduceCtorEq, false_iff, not_and]
              intro _ hall
              have := hall source kind hkind target hto
              simp only [decide_eq_true_eq] at hbad
              omega
          · next hfind =>
              simp only [true_iff]
              refine ⟨⟨root, h, by omega⟩, fun source kind hkind target hto => ?_⟩
              have := List.find?_eq_none.1 hfind (source, target)
                (mem_allReferences.2 ⟨kind, hkind, hto⟩)
              simpa using this

end Grammar

end Typeahead
