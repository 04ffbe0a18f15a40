/-
A command language, as far as it is known to the completer.

Main definitions:

* `Typeahead.Language` — a grammar, the types, the known names and the settings;
* `Typeahead.Language.candidates` — the names that a reference may stand for.
-/

import Typeahead.Outline.Basic
import Typeahead.Settings.Basic
import Typeahead.Symbols
import Typeahead.Types.Basic

set_option relaxedAutoImplicit false
set_option autoImplicit false

namespace Typeahead

/-- Everything that is known about a command language. -/
structure Language where
  grammar : Grammar := {}
  types : TypeTable := {}
  symbols : SymbolIndex := {}
  providers : List NameProvider := []
  settings : Settings := {}

namespace Language

/-- The kind that stands for all kinds of platform parts together. -/
def platformPartKind : String := "platform_part"

/-- The kinds to look for: a leading dot does not count, and platform parts are of several
kinds. -/
def nestedKinds (language : Language) (kind : String) : List String :=
  let plain := if kind.startsWith "." then String.ofList (kind.toList.drop 1) else kind
  if plain == platformPartKind then language.settings.platformPartKinds else [plain]

/-- The names of a kind that the current type and its bases declare. -/
def nestedCandidates (language : Language) (kind : String) (scope : Option TypeId) :
    List String :=
  match scope with
  | none => []
  | some current =>
      (language.types.ancestry current).flatMap fun ancestor =>
        (language.nestedKinds kind).flatMap (language.types.symbolNames ancestor)

/-- The names that a reference may stand for. -/
def candidates (language : Language) (scope : Option TypeId) : SymbolRef → List String
  | .type (kind :: _) true => language.nestedCandidates kind scope
  | .type path _ => language.symbols.definitions path ++ language.symbols.baseTypes path
  | .name kind => NameProvider.askAll language.providers kind (language.symbols.names kind)

end Language

end Typeahead
