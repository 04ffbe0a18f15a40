/-
Completing the path of a file to include.

What has been typed is cut after its last slash or backslash: the first part names a directory,
which is looked for under every include path, and the entries of these directories that begin with
the second part are offered.  A directory is offered with a slash, so that typing can go on.

Main definitions:

* `Typeahead.IncludeOffers` — the paths offered, and whether one of them may be typed on;
* `Typeahead.Include.cutPath` — the typed directory and the start of a name;
* `Typeahead.Include.offers` — the paths offered.
-/

import Typeahead.Files.Tree
import Typeahead.Ranking
import Typeahead.Settings.Basic

set_option relaxedAutoImplicit false
set_option autoImplicit false

namespace Typeahead

/-- The paths offered for an include command.  `partialToken` says that one of them is a
directory, so that typing goes on inside the same word. -/
structure IncludeOffers where
  suggestions : List String := []
  partialToken : Bool := false
  deriving DecidableEq, Repr

namespace Include

/-- Both slashes separate the names of a typed path. -/
def isSlash (c : Char) : Bool := c == '/' || c == '\\'

/-- The typed directory up to its last slash, written with plain slashes, and the rest. -/
def cutPath (text : String) : String × String :=
  let backwards := text.toList.reverse
  let directory := (backwards.dropWhile fun c => !isSlash c).reverse
  let start := (backwards.takeWhile fun c => !isSlash c).reverse
  (String.ofList (directory.map fun c => if c == '\\' then '/' else c), String.ofList start)

/-- The directory where relative include paths start. -/
def baseDirectory (files : FileTree) (settings : Settings) : String :=
  settings.workingDirectory.getD ("/" ++ "/".intercalate files.current)

/-- The directories to look into, in the order of the include paths. -/
def searchPaths (files : FileTree) (settings : Settings) (directory : String) : List String :=
  settings.includePaths.map fun path =>
    Path.join (Path.join (baseDirectory files settings) path) directory

/-- The entry `name` of the directory at `path`, as it is offered: what leads to a directory gets a
slash, or is left out if it is to be ignored. -/
def offer? (files : FileTree) (settings : Settings) (directory path name : String) :
    Option (String × Bool) :=
  if files.isDirectory (Path.join path name) then
    if settings.ignoredEntries.contains name then none
    else some (directory ++ name ++ "/", true)
  else some (directory ++ name, false)

/-- The offers from the directory that a path leads to; none if it leads to no directory. -/
def offersIn (files : FileTree) (settings : Settings) (directory start : String)
    (path : String) : List (String × Bool) :=
  match files.locate path with
  | .ok location =>
      if files.hasDirectory location then
        ((files.entryNames location).filter fun name => name.startsWith start).filterMap
          (offer? files settings directory path)
      else []
  | .error _ => []

/-- The paths offered for what has been typed after an include command. -/
def offers (files : FileTree) (settings : Settings) (text : String) : IncludeOffers :=
  let (directory, start) := cutPath text
  let found := (searchPaths files settings directory).flatMap
    (offersIn files settings directory start)
  { suggestions := Ranking.rank (found.map Prod.fst), partialToken := found.any Prod.snd }

end Include

end Typeahead
