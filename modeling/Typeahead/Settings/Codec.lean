/-
The codec of settings over a JSON package.

Settings are written as an object.  They may also be read from a list of the values of the first
fields.  Fields that are left out keep their defaults, and fields that are not known are skipped.

Main definitions:

* `Typeahead.Settings.readMembers` — settings from the members of an object;
* `Typeahead.Settings.readList` — settings from a list of values;
* `Typeahead.Settings.codecOf` — the codec.
-/

import Typeahead.Settings.Text

set_option relaxedAutoImplicit false
set_option autoImplicit false

namespace Typeahead

namespace Settings

variable (json : Json.Package)

/-! ### Lists -/

/-- Reads values for the given fields until the list ends.  When all fields have a value the list
has to end. -/
def readList (settings : Settings) (first : Bool) :
    List Field → List Char → Json.Scanned Settings
  | [], input => (json.closeList input).map fun rest => (settings, rest)
  | field :: fields, input =>
      match json.nextElement first input with
      | .error fault => .error fault
      | .ok (.close rest) => .ok (settings, rest)
      | .ok (.item rest) =>
          match field.read json settings rest with
          | .error fault => .error fault
          | .ok (settings, rest) => readList settings false fields rest

/-! ### Objects -/

/-- Reads the value after a name: into its field, or skipping it if the name is not known.  A
field that has been `seen` must not come again. -/
def readMember (settings : Settings) (seen : List Field) (name : String) (input : List Char) :
    Json.Scanned (Settings × List Field) :=
  match Field.ofKey? name with
  | some field =>
      if seen.contains field then .error .unfit
      else
        match json.colon input with
        | .error fault => .error fault
        | .ok rest =>
            (field.read json settings rest).map fun scanned =>
              ((scanned.1, field :: seen), scanned.2)
  | none =>
      match json.colon input with
      | .error fault => .error fault
      | .ok rest => (json.skip rest).map fun rest => ((settings, seen), rest)

/-- Reads the members of an object, at most `fuel` of them. -/
def readMembers (settings : Settings) (seen : List Field) (first : Bool) :
    Nat → List Char → Json.Scanned Settings
  | 0, _ => .error .malformed
  | fuel + 1, input =>
      match json.nextName first input with
      | .error fault => .error fault
      | .ok (none, rest) => .ok (settings, rest)
      | .ok (some name, rest) =>
          match readMember json settings seen name rest with
          | .error fault => .error fault
          | .ok ((settings, seen), rest) => readMembers settings seen false fuel rest

/-! ### Whole texts -/

/-- Reads settings in either form.  Every member of an object takes at least one character. -/
def readValue (input : List Char) : Json.Scanned Settings :=
  match json.enter input with
  | .error fault => .error fault
  | .ok (.list rest) => readList json {} true Field.all rest
  | .ok (.object rest) => readMembers json {} [] true (input.length + 1) rest

/-- The codec that goes through a text with the readers of the package. -/
def codecOf : Codec where
  readText text :=
    match readValue json text.toList with
    | .error fault => .error fault
    | .ok (settings, rest) => (json.finish rest).map fun _ => settings
  writeText settings :=
    String.ofList (json.writeObject (Field.all.map fun field =>
      (field.key, field.write json settings)))

end Settings

end Typeahead
