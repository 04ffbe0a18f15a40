/-
A tree of files.

The tree is a list of objects with the names that lead to them from the root; the root itself is
always there.  A path text is followed name by name, and a link on the way is replaced by its
target; more than forty links make a path that leads nowhere.

Main definitions:

* `Typeahead.FileTree` — the objects, and the directory where relative paths start;
* `Typeahead.FileTree.locate` — where a path leads, links followed;
* `Typeahead.FileTree.isDirectory`, `Typeahead.FileTree.entryNames` — look-up;
* `Typeahead.FileTree.read` — the text of a file;
* `Typeahead.FileTree.makeDirectories` — makes a directory with all those above it.
-/

import Typeahead.Files.Path
import Typeahead.Ranking

set_option relaxedAutoImplicit false
set_option autoImplicit false

namespace Typeahead

/-- The names that lead from the root to an object. -/
abbrev Location := List String

/-- What can stand in a directory. -/
inductive FileObject where
  | directory
  /-- A file, with its bytes and the seconds since it was last written. -/
  | file (bytes : ByteArray) (age : Nat)
  | link (target : String)

/-- Files and directories, and the directory where relative paths start. -/
structure FileTree where
  objects : List (Location × FileObject) := []
  current : Location := []

/-- Why a path cannot be used. -/
inductive FileError where
  | notFound
  | notDirectory
  | isDirectory
  | alreadyThere
  | tooManyLinks
  | zeroInName
  | notText
  deriving DecidableEq, Repr

/-- The text shown to the user. -/
def FileError.message : FileError → String
  | .notFound => "No such file or directory (os error 2)"
  | .notDirectory => "Not a directory (os error 20)"
  | .isDirectory => "Is a directory (os error 21)"
  | .alreadyThere => "File exists (os error 17)"
  | .tooManyLinks => "Too many levels of symbolic links (os error 40)"
  | .zeroInName => "file name contained an unexpected NUL byte"
  | .notText => "stream did not contain valid UTF-8"

namespace FileTree

/-! ### Look-up -/

/-- The object at a location. -/
def object? (tree : FileTree) (location : Location) : Option FileObject :=
  if location.isEmpty then some .directory
  else (tree.objects.find? fun entry => entry.1 == location).map Prod.snd

/-- Whether there is a directory at a location, links not followed. -/
def hasDirectory (tree : FileTree) (location : Location) : Bool :=
  match tree.object? location with
  | some .directory => true
  | _ => false

/-- How far a path leads without following a link. -/
inductive Walk where
  /-- The path leads to an object. -/
  | arrived (location : Location)
  /-- The path meets a link in a directory, with names still to go. -/
  | metLink (directory : Location) (target : String) (rest : List String)

/-- Follows names up to the first link. -/
def walk (tree : FileTree) (location : Location) : List String → Except FileError Walk
  | [] => .ok (.arrived location)
  | name :: rest =>
      if !tree.hasDirectory location then .error .notDirectory
      else if Path.stays name then walk tree location rest
      else if name == ".." then walk tree location.dropLast rest
      else
        match tree.object? (location ++ [name]) with
        | none => .error .notFound
        | some (.link target) => .ok (.metLink location target rest)
        | some _ => walk tree (location ++ [name]) rest

/-- The number of links that a path may lead through. -/
def maxLinks : Nat := 40

/-- Where a path starts. -/
def startOf (base : Location) (path : String) : Location :=
  if Path.isAbsolute path then [] else base

/-- Follows names and at most `links` links. -/
def follow (tree : FileTree) : Nat → Location → List String → Except FileError Location
  | links, location, names =>
      match tree.walk location names with
      | .error error => .error error
      | .ok (.arrived location) => .ok location
      | .ok (.metLink directory target rest) =>
          match links with
          | 0 => .error .tooManyLinks
          | links + 1 => follow tree links (startOf directory target) (Path.parts target ++ rest)

/-- Where a path leads, links followed. -/
def locate (tree : FileTree) (path : String) : Except FileError Location :=
  if path.toList.contains '\x00' then .error .zeroInName
  else if path.isEmpty then .error .notFound
  else tree.follow maxLinks (startOf tree.current path) (Path.parts path)

/-- Whether a path leads to a directory. -/
def isDirectory (tree : FileTree) (path : String) : Bool :=
  match tree.locate path with
  | .ok location => tree.hasDirectory location
  | .error _ => false

/-- The names of the objects in the directory at a location. -/
def entryNames (tree : FileTree) (location : Location) : List String :=
  tree.objects.filterMap fun entry =>
    if entry.1.dropLast == location then entry.1.getLast? else none

/-- The text of the file that a path leads to. -/
def read (tree : FileTree) (path : String) : Except FileError String :=
  match tree.locate path with
  | .error error => .error error
  | .ok location =>
      match tree.object? location with
      | some (.file bytes _) =>
          match String.fromUTF8? bytes with
          | some text => .ok text
          | none => .error .notText
      | _ => .error .isDirectory

/-- The paths of everything below the current directory, in plain order. -/
def pathsBelow (tree : FileTree) : List String :=
  inOrder (tree.objects.filterMap fun entry =>
    if tree.current.isPrefixOf entry.1 && entry.1 != tree.current then
      some ("/".intercalate (entry.1.drop tree.current.length))
    else none)

/-! ### Changes -/

/-- Puts an object at a location, over one that is there. -/
def insert (tree : FileTree) (location : Location) (object : FileObject) : FileTree :=
  { tree with
    objects := tree.objects.filter (fun entry => entry.1 != location) ++ [(location, object)] }

/-- Removes what is at a location. -/
def erase (tree : FileTree) (location : Location) : FileTree :=
  { tree with objects := tree.objects.filter fun entry => entry.1 != location }

/-- Makes the directories on the way to a location that are not there yet. -/
def makeWay (tree : FileTree) (location : Location) : FileTree :=
  ((List.range (location.length + 1)).map location.take).foldl
    (fun tree above => if (tree.object? above).isSome then tree else tree.insert above .directory)
    tree

/-- Puts an object below the current directory, with all directories on the way to it. -/
def place (tree : FileTree) (path : String) (object : FileObject) : FileTree :=
  let location := tree.current ++ (Path.parts path).filter fun name => !Path.stays name
  (tree.makeWay location.dropLast).insert location object

/-- Where a new object of the given path would go: the directory above it is there, and its own
name is not taken. -/
def locateNew (tree : FileTree) (path : String) : Except FileError Location :=
  if path.toList.contains '\x00' then .error .zeroInName
  else if path.isEmpty then .error .notFound
  else
    let kept := (Path.parts path).reverse.dropWhile (· == "") |>.reverse
    match tree.follow maxLinks (startOf tree.current path) kept.dropLast, kept.getLast? with
    | .error error, _ => .error error
    | .ok _, none => .error .alreadyThere
    | .ok location, some name =>
        if !tree.hasDirectory location then .error .notDirectory
        else if Path.stays name || name == ".." then .error .alreadyThere
        else if (tree.object? (location ++ [name])).isSome then .error .alreadyThere
        else .ok (location ++ [name])

/-- Makes a directory. -/
def makeDirectory (tree : FileTree) (path : String) : Except FileError FileTree :=
  (tree.locateNew path).map fun location => tree.insert location .directory

/-- Makes a directory unless it is there. -/
def ensureDirectory (tree : FileTree) (path : String) : Except FileError FileTree :=
  match tree.makeDirectory path with
  | .ok made => .ok made
  | .error error => if tree.isDirectory path then .ok tree else .error error

/-- Makes the first of the given directories, each of which stands in the next one.  Those after
it are made only if it cannot be made without them. -/
def ensureChain (tree : FileTree) : List String → Except FileError FileTree
  | [] => .ok tree
  | path :: above =>
      if path.isEmpty then .ok tree
      else
        match tree.ensureDirectory path with
        | .error .notFound =>
            match ensureChain tree above with
            | .ok tree => tree.ensureDirectory path
            | .error error => .error error
        | outcome => outcome

/-- Makes a directory with all those above it that are not there yet. -/
def makeDirectories (tree : FileTree) (path : String) : Except FileError FileTree :=
  tree.ensureChain (Path.ancestors path)

end FileTree

end Typeahead
