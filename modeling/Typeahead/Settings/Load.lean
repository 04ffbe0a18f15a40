/-
Settings from a file.

Main definitions:

* `Typeahead.Settings.LoadError` — why settings cannot be loaded;
* `Typeahead.Settings.load` — the settings of a file.
-/

import Typeahead.Files.Tree
import Typeahead.Settings.Text
import Typeahead.Text.Quoted

set_option relaxedAutoImplicit false
set_option autoImplicit false

namespace Typeahead

namespace Settings

/-- Why settings cannot be loaded: the file cannot be read, or its text cannot. -/
inductive LoadError where
  | unreadable (path : String) (error : FileError)
  | faulty (fault : Json.Fault)
  deriving DecidableEq, Repr

/-- The text shown to the user for a file that cannot be read. -/
def unreadableMessage (path : String) (error : FileError) : String :=
  "failed to read configuration " ++ Text.quoted path ++ ": " ++ error.message

/-- The settings of the file that a path leads to. -/
def load (codec : Codec) (files : FileTree) (path : String) : Except LoadError Settings :=
  match files.read path with
  | .error error => .error (.unreadable path error)
  | .ok text =>
      match ofText codec text with
      | .error fault => .error (.faulty fault)
      | .ok settings => .ok settings

end Settings

end Typeahead
