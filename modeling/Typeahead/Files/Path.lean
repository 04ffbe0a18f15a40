/-
Path texts.

A path is written with slashes between its names.  One that starts with a slash is absolute; any
other starts at some directory.  An empty name and the name `.` stay in the same directory, and
`..` leads to the one above.

Main definitions:

* `Typeahead.Path.join` — a path continued by another;
* `Typeahead.Path.parts` — the names between the slashes;
* `Typeahead.Path.parent?` — the path without its last name.
-/

set_option relaxedAutoImplicit false
set_option autoImplicit false

namespace Typeahead

namespace Path

/-- Whether a path starts at the root. -/
def isAbsolute (path : String) : Bool := path.startsWith "/"

/-- A path continued by another; an absolute one starts anew. -/
def join (base path : String) : String :=
  if isAbsolute path then path
  else if base.isEmpty || base.endsWith "/" then base ++ path
  else base ++ "/" ++ path

/-- The names of a path, empty ones included. -/
def parts (path : String) : List String := (path.toList.splitOnP (· == '/')).map String.ofList

/-- Whether a name stays in the same directory. -/
def stays (name : String) : Bool := name == "" || name == "."

/-- The names that a path is made of: a `.` counts at the start only, and empty names never. -/
def names (path : String) : List String :=
  match parts path with
  | [] => []
  | first :: rest =>
      (if first.isEmpty then [] else [first]) ++ rest.filter fun name => !stays name

/-- The path without its last name; the root and the empty path have none to lose. -/
def parent? (path : String) : Option String :=
  if (names path).isEmpty then none
  else
    let shorter := "/".intercalate (names path).dropLast
    some (if isAbsolute path then "/" ++ shorter else shorter)

/-- A path and all its parents, longest first, at most `fuel` of them. -/
def ancestorsWithin : Nat → String → List String
  | 0, _ => []
  | fuel + 1, path =>
      path :: (match parent? path with
        | some shorter => ancestorsWithin fuel shorter
        | none => [])

/-- A path and all its parents, longest first.  Each parent has a name less. -/
def ancestors (path : String) : List String :=
  ancestorsWithin ((names path).length + 1) path

end Path

end Typeahead
