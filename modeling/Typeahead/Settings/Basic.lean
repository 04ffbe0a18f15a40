/-
Settings of the completer.

Main definitions:

* `Typeahead.Settings` — the settings, each with its default.
-/

set_option relaxedAutoImplicit false
set_option autoImplicit false

namespace Typeahead

/-- The settings of the completer. -/
structure Settings where
  /-- Hints unfold the grammar up to this place of the command. -/
  maxHintWords : Int := 20
  /-- Neighbouring parts of a hint are merged beyond this many combinations. -/
  maxHints : Nat := 50
  /-- The commands that take a file to include. -/
  includeCommands : List String := ["include", "include_once"]
  /-- Where files to include are looked for. -/
  includePaths : List String := ["."]
  /-- Where relative include paths start; the current directory if there is none. -/
  workingDirectory : Option String := none
  /-- Directories that are never offered. -/
  ignoredEntries : List String := [".", "..", "CVS"]
  /-- Whether the commands of the current type are offered. -/
  expandTypeCommands : Bool := true
  /-- The kinds that count as parts of a platform. -/
  platformPartKinds : List String := ["movers", "comms", "processors", "weapons", "sensors"]
  deriving DecidableEq, Repr

/-- Whether `word` is a command that takes a file to include. -/
def Settings.isIncludeCommand (settings : Settings) (word : String) : Bool :=
  settings.includeCommands.contains word

end Typeahead
