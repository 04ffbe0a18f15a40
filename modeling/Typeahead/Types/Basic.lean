/-
Types and the symbols they declare.

A type may have a base, whose symbols it inherits, a table of symbols of its own, and a rule for
the commands it understands.  The symbols of a type are types again: a platform declares a symbol
`sensors` whose own symbols are the single sensors.  Every table starts with two roots, one for
built-in types and one for those the user defines.  A base or a symbol may point outside the
table, and the bases may run in a circle; look-up copes with both.

Main definitions:

* `Typeahead.TypeTable` — the types;
* `Typeahead.TypeTable.declare` — enters a type under an owner and a kind;
* `Typeahead.TypeTable.ancestry` — a type and its bases, nearest first;
* `Typeahead.TypeTable.findSymbol?`, `Typeahead.TypeTable.findNested?` — look-up with inheritance;
* `Typeahead.TypeTable.resolveScopes` — the type that a chain of scopes leads to;
* `Typeahead.TypeTable.validate` — all bases and symbols lie inside the table.
-/

import Typeahead.Grammar.Basic
import Typeahead.Types.SymbolTable

set_option relaxedAutoImplicit false
set_option autoImplicit false

namespace Typeahead

/-- A type of the command language. -/
structure TypeInfo where
  name : String
  base : Option TypeId := none
  symbols : SymbolTable := {}
  /-- The commands the type understands. -/
  rule : Option RuleId := none
  deriving DecidableEq, Repr

/-- The types of a command language. -/
structure TypeTable where
  types : Array TypeInfo := #[{ name := "basic" }, { name := "user" }]
  deriving DecidableEq, Repr

/-- What makes a type table unusable: type `owner` refers to `missing`, which is not there. -/
inductive TypeError where
  | danglingType (owner missing : TypeId)
  deriving DecidableEq, Repr

/-- The text shown to the user. -/
def TypeError.message : TypeError → String
  | .danglingType owner missing =>
      "type " ++ toString owner.index ++ " refers to missing type " ++ toString missing.index

namespace TypeTable

/-- The root of the built-in types. -/
def basicRoot : TypeId := ⟨0⟩

/-- The root of the types that the user defines. -/
def userRoot : TypeId := ⟨1⟩

/-- The type at a place. -/
def get? (table : TypeTable) (id : TypeId) : Option TypeInfo := table.types[id.index]?

/-- The name of the type at a place. -/
def name? (table : TypeTable) (id : TypeId) : Option String := (table.get? id).map TypeInfo.name

/-- The rule for the commands of the type at a place. -/
def rule? (table : TypeTable) (id : TypeId) : Option RuleId := (table.get? id).bind TypeInfo.rule

/-- The place that the next type gets. -/
def nextId (table : TypeTable) : TypeId := ⟨table.types.size⟩

/-- Adds a type at the end. -/
def add (table : TypeTable) (name : String) (base : Option TypeId) : TypeTable :=
  ⟨table.types.push { name, base }⟩

/-- Enters a symbol into the table of `owner`; a missing owner is left alone. -/
def addSymbol (table : TypeTable) (owner : TypeId) (key : String) (symbol : TypeId) : TypeTable :=
  ⟨table.types.modify owner.index fun info => { info with symbols := info.symbols.insert key symbol }⟩

/-- Gives a type the rule for its commands. -/
def setRule (table : TypeTable) (id : TypeId) (rule : RuleId) : TypeTable :=
  ⟨table.types.modify id.index fun info => { info with rule := some rule }⟩

/-- The type that `key` stands for in the table of `id` itself. -/
def ownSymbol? (table : TypeTable) (id : TypeId) (key : String) : Option TypeId :=
  (table.get? id).bind fun info => info.symbols.find? key

/-- The container of the symbols of one kind under `owner`, made if there is none. -/
def container (table : TypeTable) (owner : TypeId) (kind : String) : TypeTable × TypeId :=
  match table.ownSymbol? owner kind with
  | some id => (table, id)
  | none => ((table.add kind none).addSymbol owner kind table.nextId, table.nextId)

/-- Enters a new type `name` among the symbols of one kind under `owner`, and tells its place. -/
def declare (table : TypeTable) (owner : TypeId) (kind name : String) (base : Option TypeId) :
    TypeTable × TypeId :=
  let (table, box) := table.container owner kind
  ((table.add name base).addSymbol box name table.nextId, table.nextId)

/-- The bases from `id?` upwards, at most `fuel` of them, up to the first that is missing or is
among those `seen` already. -/
def ancestryFrom (table : TypeTable) : Nat → List TypeId → Option TypeId → List TypeId
  | 0, _, _ => []
  | _ + 1, _, none => []
  | fuel + 1, seen, some id =>
      match table.get? id with
      | none => []
      | some info =>
          if seen.contains id then [] else id :: ancestryFrom table fuel (id :: seen) info.base

/-- A type and its bases, nearest first and each one once.  No chain of distinct types is longer
than the table, so its size is fuel enough. -/
def ancestry (table : TypeTable) (id : TypeId) : List TypeId :=
  table.ancestryFrom table.types.size [] (some id)

/-- The type that `key` stands for in the nearest table upwards from `id` that has it. -/
def findSymbol? (table : TypeTable) (id : TypeId) (key : String) : Option TypeId :=
  (table.ancestry id).findSome? fun ancestor => table.ownSymbol? ancestor key

/-- Follows a path from symbol to symbol; an empty path leads nowhere. -/
def findNested? (table : TypeTable) (id : TypeId) (path : TypePath) : Option TypeId :=
  if path.isEmpty then none else path.foldlM (fun current key => table.findSymbol? current key) id

/-- The names of one kind that a type declares itself. -/
def symbolNames (table : TypeTable) (id : TypeId) (kind : String) : List String :=
  match (table.ownSymbol? id kind).bind table.get? with
  | some box => box.symbols.names
  | none => []

/-- Where one scope leads: inside the type reached so far, or from the roots at the start, the
user's types before the built-in ones. -/
def enterScope? (table : TypeTable) (current : Option TypeId) (path : TypePath) : Option TypeId :=
  match current with
  | some id => table.findNested? id path
  | none => (table.findNested? userRoot path).or (table.findNested? basicRoot path)

/-- Follows the scopes as far as they lead. -/
def resolveFrom (table : TypeTable) (current : Option TypeId) : List TypePath → Option TypeId
  | [] => current
  | path :: paths =>
      match table.enterScope? current path with
      | some id => resolveFrom table (some id) paths
      | none => current

/-- The type that a chain of scopes leads to, outermost scope first. -/
def resolveScopes (table : TypeTable) (paths : List TypePath) : Option TypeId :=
  table.resolveFrom none paths

/-- The types that the whole table refers to, each with the type that refers to it. -/
def allReferences (table : TypeTable) : List (TypeId × TypeId) :=
  table.types.toList.zipIdx.flatMap fun entry =>
    (entry.1.base.toList ++ entry.1.symbols.symbols).map fun target => (⟨entry.2⟩, target)

/-- Reports the first base or symbol that leaves the table. -/
def validate (table : TypeTable) : Except TypeError Unit :=
  match table.allReferences.find? fun entry => table.types.size ≤ entry.2.index with
  | some (owner, missing) => .error (.danglingType owner missing)
  | none => .ok ()

end TypeTable

end Typeahead
