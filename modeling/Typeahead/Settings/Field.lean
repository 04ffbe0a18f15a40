/-
The fields of the settings, as they stand in a settings text.

Main definitions:

* `Typeahead.Settings.Field` — the fields, in the order of the list form;
* `Typeahead.Settings.Field.key` — the name of a field;
* `Typeahead.Settings.Field.read`, `Typeahead.Settings.Field.write` — the value of a field.
-/

import Typeahead.Json.Package
import Typeahead.Settings.Basic

set_option relaxedAutoImplicit false
set_option autoImplicit false

namespace Typeahead

namespace Settings

/-- The fields of the settings, in the order of the list form. -/
inductive Field where
  | maxHintWords
  | maxHints
  | includeCommands
  | includePaths
  | workingDirectory
  | ignoredEntries
  | expandTypeCommands
  | platformPartKinds
  deriving DecidableEq, Repr

namespace Field

/-- All fields, in the order of the list form. -/
def all : List Field :=
  [maxHintWords, maxHints, includeCommands, includePaths, workingDirectory, ignoredEntries,
    expandTypeCommands, platformPartKinds]

/-- The name of a field in a settings text. -/
def key : Field → String
  | maxHintWords => "max_syntax_word_index"
  | maxHints => "max_syntax_list_size"
  | includeCommands => "include_commands"
  | includePaths => "include_paths"
  | workingDirectory => "working_directory"
  | ignoredEntries => "ignored_include_entries"
  | expandTypeCommands => "expand_type_commands"
  | platformPartKinds => "platform_part_kinds"

/-- The field of a name. -/
def ofKey? (key : String) : Option Field := all.find? fun field => field.key == key

theorem ofKey?_key (field : Field) : ofKey? field.key = some field := by
  cases field <;> decide

/-- The field `field` of `source`, all others as in `target`. -/
def copy (field : Field) (source target : Settings) : Settings :=
  match field with
  | maxHintWords => { target with maxHintWords := source.maxHintWords }
  | maxHints => { target with maxHints := source.maxHints }
  | includeCommands => { target with includeCommands := source.includeCommands }
  | includePaths => { target with includePaths := source.includePaths }
  | workingDirectory => { target with workingDirectory := source.workingDirectory }
  | ignoredEntries => { target with ignoredEntries := source.ignoredEntries }
  | expandTypeCommands => { target with expandTypeCommands := source.expandTypeCommands }
  | platformPartKinds => { target with platformPartKinds := source.platformPartKinds }

/-- Reads the value of a field into the settings.  The place up to which hints unfold is a number
of 32 bits with a sign, and the number of hints one of 64 bits without. -/
def read (json : Json.Package) (field : Field) (settings : Settings) (input : List Char) :
    Json.Scanned Settings :=
  match field with
  | maxHintWords =>
      (json.readInt (-Int.pow 2 31) (Int.pow 2 31 - 1) input).map fun scanned =>
        ({ settings with maxHintWords := scanned.1 }, scanned.2)
  | maxHints =>
      (json.readInt 0 (Int.pow 2 64 - 1) input).map fun scanned =>
        ({ settings with maxHints := scanned.1.toNat }, scanned.2)
  | includeCommands =>
      (json.readStrings input).map fun scanned =>
        ({ settings with includeCommands := scanned.1 }, scanned.2)
  | includePaths =>
      (json.readStrings input).map fun scanned =>
        ({ settings with includePaths := scanned.1 }, scanned.2)
  | workingDirectory =>
      (json.readOptionalString input).map fun scanned =>
        ({ settings with workingDirectory := scanned.1 }, scanned.2)
  | ignoredEntries =>
      (json.readStrings input).map fun scanned =>
        ({ settings with ignoredEntries := scanned.1 }, scanned.2)
  | expandTypeCommands =>
      (json.readBool input).map fun scanned =>
        ({ settings with expandTypeCommands := scanned.1 }, scanned.2)
  | platformPartKinds =>
      (json.readStrings input).map fun scanned =>
        ({ settings with platformPartKinds := scanned.1 }, scanned.2)

/-- Writes the value of a field. -/
def write (json : Json.Package) (field : Field) (settings : Settings) : List Char :=
  match field with
  | maxHintWords => json.writeInt settings.maxHintWords
  | maxHints => json.writeInt settings.maxHints
  | includeCommands => json.writeStrings settings.includeCommands
  | includePaths => json.writeStrings settings.includePaths
  | workingDirectory => json.writeOptionalString settings.workingDirectory
  | ignoredEntries => json.writeStrings settings.ignoredEntries
  | expandTypeCommands => json.writeBool settings.expandTypeCommands
  | platformPartKinds => json.writeStrings settings.platformPartKinds

end Field

end Settings

end Typeahead
