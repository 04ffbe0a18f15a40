/-
Names known from outside the grammar.

The symbol index holds what the document defines: definitions and base types under the path of
their kind, and plain names by kind.  Providers add names from elsewhere, each seeing those that
the index and the providers before it gave.

Main definitions:

* `Typeahead.SymbolIndex` — what the document defines;
* `Typeahead.SymbolIndex.definitions`, `Typeahead.SymbolIndex.baseTypes`,
  `Typeahead.SymbolIndex.names` — look-up;
* `Typeahead.NameProvider` — a further source of names.
-/

import Typeahead.Grammar.Basic
import Typeahead.Ranking

set_option relaxedAutoImplicit false
set_option autoImplicit false

namespace Typeahead

/-- What a document defines, in the order in which it was entered. -/
structure SymbolIndex where
  definitionEntries : List (TypePath × String) := []
  baseTypeEntries : List (TypePath × String) := []
  nameEntries : List (String × String) := []
  deriving DecidableEq, Repr

namespace SymbolIndex

/-- Enters a definition under the path of its kind. -/
def addDefinition (index : SymbolIndex) (path : TypePath) (name : String) : SymbolIndex :=
  { index with definitionEntries := index.definitionEntries ++ [(path, name)] }

/-- Enters a base type under the path of its kind. -/
def addBaseType (index : SymbolIndex) (path : TypePath) (name : String) : SymbolIndex :=
  { index with baseTypeEntries := index.baseTypeEntries ++ [(path, name)] }

/-- Enters a name of a kind. -/
def addName (index : SymbolIndex) (kind name : String) : SymbolIndex :=
  { index with nameEntries := index.nameEntries ++ [(kind, name)] }

/-- The definitions whose path starts with `path`, in the order of entry. -/
def definitions (index : SymbolIndex) (path : TypePath) : List String :=
  (index.definitionEntries.filter fun entry => path.isPrefixOf entry.1).map Prod.snd

/-- The base types entered under exactly `path`, in the order of entry. -/
def baseTypes (index : SymbolIndex) (path : TypePath) : List String :=
  (index.baseTypeEntries.filter fun entry => entry.1 == path).map Prod.snd

/-- The names of a kind, in plain order and each one once. -/
def names (index : SymbolIndex) (kind : String) : List String :=
  inOrder ((index.nameEntries.filter fun entry => entry.1 == kind).map Prod.snd)

end SymbolIndex

/-- A further source of names: from a kind and the names so far, the names to go on with. -/
abbrev NameProvider := String → List String → List String

namespace NameProvider

/-- A source that answers for one kind, or for every kind when none is given: it drops the names
so far if `clear` is set, and appends its own. -/
def fixed (kind : Option String) (clear : Bool) (own : List String) : NameProvider :=
  fun asked names =>
    if kind.all (· == asked) then (if clear then [] else names) ++ own else names

/-- The names left after every source was asked, in turn. -/
def askAll (providers : List NameProvider) (kind : String) (names : List String) : List String :=
  providers.foldl (fun names provider => provider kind names) names

end NameProvider

end Typeahead
