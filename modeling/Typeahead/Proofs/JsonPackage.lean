/-
What a JSON package is documented to do.

A reader goes by the characters that are left, up to blanks in front of them, and leaves what comes
behind the value, again up to blanks.  Values are read in every spelling, an object is gone through
member by member, and a value of any kind can be skipped.  The writers spell.  Nothing is said about
texts that are malformed or do not fit.

The package that scans does all this.

Main definitions:

* `Typeahead.Json.ReadsAs`, `Typeahead.Json.Leaves` — what becomes of a text;
* `Typeahead.Json.SpellsObject` — the spellings of an object of written values;
* `Typeahead.Json.Documented` — what is documented.

Main results:

* `Typeahead.Json.documented_scanner` — the package that scans does as documented.
-/

import Typeahead.Proofs.JsonReading

set_option relaxedAutoImplicit false
set_option autoImplicit false

namespace Typeahead

namespace Json

variable {text rest input spelling : List Char}

/-! ### What becomes of a text -/

/-- The reader gives `value` and leaves `rest`, whatever blanks are in front of the text. -/
def ReadsAs {α : Type} (reader : List Char → Scanned α) (text : List Char) (value : α)
    (rest : List Char) : Prop :=
  ∀ input, skipBlanks input = skipBlanks text → Reads (reader input) value rest

/-- What is left is `rest`, up to blanks in front of it. -/
def Leaves (scanned : Except Fault (List Char)) (rest : List Char) : Prop :=
  ∃ left, scanned = .ok left ∧ skipBlanks left = skipBlanks rest

/-- The comma in front of an item, which the first one goes without. -/
def comma (first : Bool) : List Char := if first then [] else [',']

/-- A member of an object: a name, and a value as it is written. -/
def SpellsMember (member : String × List Char) (text : List Char) : Prop :=
  ∃ name value, Spells member.1 name ∧ Padded member.2 value ∧ text = name ++ ':' :: value

/-- The spellings of an object with the given names and written values. -/
def SpellsObject (members : List (String × List Char)) (text : List Char) : Prop :=
  ∃ texts blanks, List.Forall₂ SpellsMember members texts ∧ AreBlank blanks ∧
    Padded ('{' :: (separate texts ++ (blanks ++ ['}']))) text

/-! ### What is documented -/

/-- What a package is documented to do with texts that are well formed. -/
structure Documented (json : Package) : Prop where
  /-- An object is entered at its brace. -/
  enter {input rest : List Char} : skipBlanks input = '{' :: rest →
    ∃ left, json.enter input = .ok (.object left) ∧ skipBlanks left = skipBlanks rest
  /-- A name is read in every spelling. -/
  nextName (first : Bool) {key : String} {name : List Char} (rest : List Char) : Spells key name →
    ReadsAs (json.nextName first) (comma first ++ (name ++ ':' :: rest)) (some key) (':' :: rest)
  /-- An object ends at its brace. -/
  nextName_close (first : Bool) (rest : List Char) :
    ReadsAs (json.nextName first) ('}' :: rest) none rest
  /-- The value stands behind the colon. -/
  colon {input rest : List Char} : skipBlanks input = ':' :: rest → Leaves (json.colon input) rest
  /-- An integer of at most 64 bits is read if it is between the bounds. -/
  readInt {least greatest value : Int} {spelling rest : List Char} : least ≤ value →
    value ≤ greatest → -Int.pow 2 63 ≤ value → value < Int.pow 2 64 → SpellsInt value spelling →
    MayFollow rest → ReadsAs (json.readInt least greatest) (spelling ++ rest) value rest
  /-- A truth value is read by its name. -/
  readBool {value : Bool} {spelling rest : List Char} : SpellsBool value spelling →
    MayFollow rest → ReadsAs json.readBool (spelling ++ rest) value rest
  /-- A list of strings is read in every spelling. -/
  readStrings {texts : List String} {spelling rest : List Char} : SpellsStrings texts spelling →
    MayFollow rest → ReadsAs json.readStrings (spelling ++ rest) texts rest
  /-- A string is read in every spelling, and `null` as nothing. -/
  readOptionalString {text? : Option String} {spelling rest : List Char} :
    SpellsOptional text? spelling → MayFollow rest →
    ReadsAs json.readOptionalString (spelling ++ rest) text? rest
  /-- Every value is skipped. -/
  skip {input value rest : List Char} : IsValue value → MayFollow rest →
    skipBlanks input = skipBlanks (value ++ rest) → Leaves (json.skip input) rest
  /-- A text may end with blanks. -/
  finish {input : List Char} : skipBlanks input = [] → json.finish input = .ok ()
  /-- An integer of at most 64 bits is written in decimal notation. -/
  writeInt {value : Int} : -Int.pow 2 63 ≤ value → value < Int.pow 2 64 →
    SpellsInt value (json.writeInt value)
  /-- A truth value is written by its name. -/
  writeBool (value : Bool) : SpellsBool value (json.writeBool value)
  /-- What is written for a list of strings spells it. -/
  writeStrings (texts : List String) : SpellsStrings texts (json.writeStrings texts)
  /-- What is written for a string spells it, and `null` is written for nothing. -/
  writeOptionalString (text? : Option String) :
    SpellsOptional text? (json.writeOptionalString text?)
  /-- An object is written with the names and values that it is given. -/
  writeObject (members : List (String × List Char)) :
    SpellsObject members (json.writeObject members)

/-! ### The package that scans -/

/-- A reader that skips blanks first reads whatever blanks are in front. -/
theorem ReadsAs.of_reads {α : Type} {reader : List Char → Scanned α} {value : α}
    (hreader : ∀ input, reader (skipBlanks input) = reader input)
    (h : Reads (reader text) value rest) : ReadsAs reader text value rest := by
  intro input hinput
  rw [← hreader input, hinput, hreader text]
  exact h

theorem nextName_skipBlanks (first : Bool) (input : List Char) :
    nextName first (skipBlanks input) = nextName first input := by
  unfold nextName nextMember
  rw [skipBlanks_skipBlanks]

/-- The name is read behind the comma. -/
theorem nextName_spells (first : Bool) {key : String} {name : List Char} (h : Spells key name)
    (rest : List Char) :
    Reads (nextName first (comma first ++ (name ++ rest))) (some key) rest := by
  obtain ⟨body, right, hbody, hright, hopen⟩ := h.exists_body
  refine ⟨right ++ rest, ?_, skipBlanks_append hright rest⟩
  have hmember : nextMember first (comma first ++ (name ++ rest)) =
      .ok (.item (body ++ '"' :: (right ++ rest))) := by
    cases first with
    | true => simp only [comma, if_true, List.nil_append, nextMember, hopen]
    | false =>
        simp only [comma, Bool.false_eq_true, if_false, List.singleton_append, nextMember,
          skipBlanks_cons (c := ',') rfl, hopen]
  simp only [nextName, hmember, scanString_spellsChars hbody, String.ofList_toList]

theorem readInt_skipBlanks (least greatest : Int) (input : List Char) :
    readInt least greatest (skipBlanks input) = readInt least greatest input := by
  rw [readInt, skipBlanks_skipBlanks, readInt]

theorem readBool_skipBlanks (input : List Char) :
    readBool (skipBlanks input) = readBool input := by
  rw [readBool, skipBlanks_skipBlanks, readBool]

theorem readStrings_skipBlanks (input : List Char) :
    readStrings (skipBlanks input) = readStrings input := by
  rw [readStrings, skipBlanks_skipBlanks, readStrings]

theorem readOptionalString_skipBlanks (input : List Char) :
    readOptionalString (skipBlanks input) = readOptionalString input := by
  rw [readOptionalString, skipBlanks_skipBlanks, readOptionalString]

/-- A value without the blanks in front of it is a value. -/
theorem IsValue.exists_skipBlanks (h : IsValue text) :
    ∃ value, IsValue value ∧ ∀ rest, skipBlanks (text ++ rest) = value ++ rest := by
  induction h with
  | null => exact ⟨_, .null, fun _ => rfl⟩
  | true => exact ⟨_, .true, fun _ => rfl⟩
  | false => exact ⟨_, .false, fun _ => rfl⟩
  | number hnumeral =>
      refine ⟨_, .number hnumeral, fun rest => ?_⟩
      obtain ⟨c, more, rfl, hc⟩ := hnumeral.exists_cons
      exact skipBlanks_cons (isBlank_of_number hc) _
  | string hbody => exact ⟨_, .string hbody, fun _ => rfl⟩
  | array hitems hblanks => exact ⟨_, .array hitems hblanks, fun _ => rfl⟩
  | object hnames hvalues hblanks => exact ⟨_, .object hnames hvalues hblanks, fun _ => rfl⟩
  | padded _ hpadded ih =>
      obtain ⟨value, hvalue, hopen⟩ := ih
      obtain @⟨left, right, hleft, hright⟩ := hpadded
      have hpadded : Padded value ([] ++ value ++ right) := .pad areBlank_nil hright
      refine ⟨_, .padded hvalue hpadded, fun rest => ?_⟩
      rw [List.append_assoc, List.append_assoc, skipBlanks_append hleft, hopen, List.nil_append,
        List.append_assoc]

/-- The fuel lasts also where there are no blanks left in front of the value. -/
theorem leaves_skipValue {value : List Char} (h : IsValue value) (hrest : MayFollow rest)
    (hinput : skipBlanks input = skipBlanks (value ++ rest)) :
    ∃ left, skipValue input = some left ∧ skipBlanks left = skipBlanks rest := by
  obtain ⟨value', hvalue', hopen⟩ := h.exists_skipBlanks
  rw [hopen] at hinput
  have hlength : (value' ++ rest).length ≤ input.length := by
    rw [← hinput]
    exact (List.dropWhile_suffix _).length_le
  have hcongr : skipBlanks input = skipBlanks (value' ++ rest) := by
    rw [← hinput, skipBlanks_skipBlanks]
  obtain ⟨left, hskip, hleft⟩ := hvalue'.skips (2 * input.length + 2) rest hrest (by omega)
  exact ⟨left, (skipValueWithin_congr hcongr).trans hskip, hleft⟩

theorem spellsObject_writeObject (members : List (String × List Char)) :
    SpellsObject members (writeObject members) := by
  refine ⟨_, [], ?_, areBlank_nil, padded_self _⟩
  rw [List.forall₂_map_right_iff, List.forall₂_same]
  exact fun member _ => ⟨_, _, spells_writeString member.1, padded_self _, rfl⟩

theorem documented_scanner : Documented scanner where
  enter h := ⟨_, by simp only [scanner, enter, h], rfl⟩
  nextName first _ _ rest h := .of_reads (nextName_skipBlanks first) (nextName_spells first h _)
  nextName_close first rest := .of_reads (nextName_skipBlanks first) ⟨rest, rfl, rfl⟩
  colon h := ⟨_, by simp only [scanner, expectColon, h], rfl⟩
  readInt hleast hgreatest hlow hhigh h hrest := by
    have hdigits : Int.pow 2 63 < Nat.pow 10 20 ∧ Int.pow 2 64 < Nat.pow 10 20 := by decide
    exact .of_reads (readInt_skipBlanks _ _) (readInt_spells hleast hgreatest (by omega) h hrest)
  readBool h _ := .of_reads readBool_skipBlanks (readBool_spells h _)
  readStrings h _ := .of_reads readStrings_skipBlanks (readStrings_spells h _)
  readOptionalString h _ := .of_reads readOptionalString_skipBlanks (readOptionalString_spells h _)
  skip hvalue hrest hinput := by
    obtain ⟨left, hskip, hleft⟩ := leaves_skipValue hvalue hrest hinput
    exact ⟨left, by simp only [scanner, hskip], hleft⟩
  finish h := by simp only [scanner, h, List.isEmpty_nil, if_true]
  writeInt _ _ := spellsInt_writeInt _
  writeBool := spellsBool_writeBool
  writeStrings := spellsStrings_writeStrings
  writeOptionalString text? := by
    cases text? with
    | none => exact .none (padded_self _)
    | some text => exact .some (spells_writeString text)
  writeObject := spellsObject_writeObject

end Json

end Typeahead
