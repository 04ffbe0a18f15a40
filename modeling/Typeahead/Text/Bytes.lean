/-
Texts as bytes.

A text is stored in UTF-8.  Bytes that are cut out of one need not be a text: reading them goes from
the left and takes one encoded character after another, and where none is encoded, the replacement
character stands for the longest stretch that begins one.  At most three bytes can begin a character
without ending it, and they do if bytes that go on with a character complete them.

Main definitions:

* `Typeahead.utf8Bytes` — the bytes of a text;
* `Typeahead.Text.isSeparatorByte` — the bytes that end a word;
* `Typeahead.Text.lossy` — the characters that bytes are read as.
-/

set_option relaxedAutoImplicit false
set_option autoImplicit false

namespace Typeahead

/-- The UTF-8 form of a text. -/
def utf8Bytes (text : String) : List UInt8 := text.toByteArray.data.toList

namespace Text

/-- Blank, tab, line feed and carriage return, as bytes. -/
def isSeparatorByte (byte : UInt8) : Bool :=
  byte == 0x20 || byte == 0x09 || byte == 0x0A || byte == 0x0D

/-- The character that is encoded at the front of the bytes. -/
def firstChar? (bytes : List UInt8) : Option Char := (bytes.take 4).toByteArray.utf8DecodeChar? 0

/-- Whether one or two further bytes can make the bytes a character. -/
def isCutOff (part : List UInt8) : Bool :=
  [[0x80], [0x80, 0x80]].any fun added => (firstChar? (part ++ added)).isSome

/-- The bytes that one replacement character stands for, in front of bytes that encode no
character. -/
def brokenPart (bytes : List UInt8) : List UInt8 :=
  ([bytes.take 3, bytes.take 2].find? isCutOff).getD (bytes.take 1)

/-- What the bytes are read as when the first `skipped` ones have been read already. -/
def lossyFrom : Nat → List UInt8 → List Char
  | _, [] => []
  | skipped + 1, _ :: bytes => lossyFrom skipped bytes
  | 0, byte :: bytes =>
      match firstChar? (byte :: bytes) with
      | some c => c :: lossyFrom (c.utf8Size - 1) bytes
      | none => '\uFFFD' :: lossyFrom ((brokenPart (byte :: bytes)).length - 1) bytes

/-- The characters that bytes are read as. -/
def lossy (bytes : List UInt8) : List Char := lossyFrom 0 bytes

end Text

end Typeahead
