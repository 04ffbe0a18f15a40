/-
Settings as texts.

How a text is turned into settings, and settings into a text, is left to a codec that is made for
the fields of the settings.

Main definitions:

* `Typeahead.Settings.Codec` — a reader and a writer of settings;
* `Typeahead.Settings.ofText` — the settings of a text.
-/

import Typeahead.Settings.Field

set_option relaxedAutoImplicit false
set_option autoImplicit false

namespace Typeahead

namespace Settings

/-- A reader and a writer of settings. -/
structure Codec where
  readText : String → Except Json.Fault Settings
  writeText : Settings → String

/-- The settings of a text. -/
def ofText (codec : Codec) (text : String) : Except Json.Fault Settings := codec.readText text

end Settings

end Typeahead
