/-
Settings are read as they were written.

A settings text is an object whose members stand in any order.  A member is a field, with its value
in any spelling, or it has an unknown name and any value at all.  The codec goes through the members
with the readers of a JSON package: it reads the value of a field into the settings, and skips what
it does not know.  Where the package and the codec do as they are documented to, the fields that are
there come from the text and all others from the defaults.  What is written is such a text with all
fields, so it is read as the settings that were written.

Main definitions:

* `Typeahead.Settings.Visits` — the way through the members of an object;
* `Typeahead.Settings.Codec.Documented` — what a codec is documented to do;
* `Typeahead.Settings.Field.Holds` — the spellings of the value of a field;
* `Typeahead.Settings.IsMember` — a field of the settings, or a member that is not known;
* `Typeahead.Settings.IsObject` — an object of some fields, among members that are not known;
* `Typeahead.Settings.copyAll` — settings with some fields from others;
* `Typeahead.Settings.InBounds` — the numbers of the settings fit into their words.

Main results:

* `Typeahead.Settings.documented_codecOf` — the codec that goes through a text does as documented;
* `Typeahead.Settings.Field.reads` — every spelling of a value is read into its field;
* `Typeahead.Settings.visits_listed` — the members are visited one after the other;
* `Typeahead.Settings.ofText_isObject` — reading undoes writing, field by field.
-/

import Mathlib.Data.List.ReduceOption
import Typeahead.Proofs.JsonPackage
import Typeahead.Settings.Codec

set_option relaxedAutoImplicit false
set_option autoImplicit false

namespace Typeahead

open Json

namespace Settings

variable {json : Package} {codec : Codec} {source target : Settings} {field : Field}
  {fields : List Field} {mark : Option Field} {marks : List (Option Field)}
  {text rest tail input member : List Char} {members : List (List Char)}

/-! ### What is documented -/

/-- The way through the members of an object, from some settings to others.  The value of a field is
read into it, and what is not known is skipped; `marks` has for each member the field, if it is
one. -/
inductive Visits (json : Package) : Settings → Bool → List Char → List (Option Field) →
    Settings → List Char → Prop
  | close {settings : Settings} {first : Bool} {input rest : List Char} :
      json.nextName first input = .ok (none, rest) →
      Visits json settings first input [] settings rest
  | field {settings read last : Settings} {first : Bool} {input named value behind rest : List Char}
      {field : Field} {marks : List (Option Field)} :
      json.nextName first input = .ok (some field.key, named) → json.colon named = .ok value →
      field.read json settings value = .ok (read, behind) →
      Visits json read false behind marks last rest →
      Visits json settings first input (some field :: marks) last rest
  | other {settings last : Settings} {first : Bool} {input named value behind rest : List Char}
      {key : String} {marks : List (Option Field)} :
      json.nextName first input = .ok (some key, named) → (∀ field : Field, field.key ≠ key) →
      json.colon named = .ok value → json.skip value = .ok behind →
      Visits json settings false behind marks last rest →
      Visits json settings first input (none :: marks) last rest

/-- What a codec over a package is documented to do. -/
structure Codec.Documented (codec : Codec) (json : Package) : Prop where
  /-- A text that is an object, with no field twice, is read on its way through the members, from
  the defaults on.  No text has more members than characters. -/
  readText {text : String} {input rest : List Char} {marks : List (Option Field)}
    {settings : Settings} : json.enter text.toList = .ok (.object input) →
    Visits json {} true input marks settings rest → marks.reduceOption.Nodup →
    marks.length ≤ text.toList.length → json.finish rest = .ok () →
    codec.readText text = .ok settings
  /-- Settings are written as an object of all fields. -/
  writeText (settings : Settings) : codec.writeText settings =
    String.ofList (json.writeObject (Field.all.map fun field =>
      (field.key, field.write json settings)))

/-! ### The codec that goes through a text -/

theorem Field.ofKey?_eq_none {key : String} (h : ∀ field : Field, field.key ≠ key) :
    ofKey? key = none :=
  List.find?_eq_none.2 fun field _ hkey => h field (eq_of_beq hkey)

/-- The members are read on the way through them. -/
theorem Visits.readMembers_eq {settings last : Settings} {first : Bool}
    (h : Visits json settings first input marks last rest) {seen : List Field} {fuel : Nat}
    (hnodup : marks.reduceOption.Nodup) (hnew : ∀ field ∈ marks.reduceOption, field ∉ seen)
    (hfuel : marks.length < fuel) :
    readMembers json settings seen first fuel input = .ok (last, rest) := by
  induction h generalizing seen fuel with
  | close hname =>
      obtain ⟨fuel, rfl⟩ := Nat.exists_add_one_eq.2 hfuel
      rw [readMembers]
      simp only [hname]
  | @field settings read last first input named value behind rest field marks hname hcolon hread _
      ih =>
      obtain ⟨fuel, rfl⟩ := Nat.exists_add_one_eq.2 (Nat.zero_lt_of_lt hfuel)
      rw [List.reduceOption_cons_of_some] at hnodup hnew
      obtain ⟨hapart, hnodup⟩ := List.nodup_cons.1 hnodup
      have hseen : seen.contains field = false := by
        rw [← Bool.not_eq_true, List.contains_iff_mem]
        exact hnew field List.mem_cons_self
      have hmember : readMember json settings seen field.key named =
          .ok ((read, field :: seen), behind) := by
        rw [readMember, Field.ofKey?_key]
        simp only [hseen, Bool.false_eq_true, if_false, hcolon, hread]
        rfl
      -- no field stands twice, so the ones that come later are still new behind this member
      have hnew' : ∀ other ∈ marks.reduceOption, other ∉ field :: seen := by
        intro other hother hmem
        obtain rfl | hmem := List.mem_cons.1 hmem
        · exact hapart hother
        · exact hnew other (List.mem_cons_of_mem _ hother) hmem
      rw [readMembers]
      simp only [hname, hmember]
      exact ih hnodup hnew' (Nat.lt_of_succ_lt_succ hfuel)
  | @other settings last first input named value behind rest key marks hname hkey hcolon hskip _
      ih =>
      obtain ⟨fuel, rfl⟩ := Nat.exists_add_one_eq.2 (Nat.zero_lt_of_lt hfuel)
      rw [List.reduceOption_cons_of_none] at hnodup hnew
      have hmember : readMember json settings seen key named = .ok ((settings, seen), behind) := by
        rw [readMember, Field.ofKey?_eq_none hkey]
        simp only [hcolon, hskip]
        rfl
      rw [readMembers]
      simp only [hname, hmember]
      exact ih hnodup hnew (Nat.lt_of_succ_lt_succ hfuel)

theorem documented_codecOf (json : Package) : (codecOf json).Documented json where
  readText henter hvisits hnodup hlength hfinish := by
    have hmembers := hvisits.readMembers_eq hnodup (fun _ _ => List.not_mem_nil)
      (Nat.lt_succ_of_le hlength)
    simp only [codecOf, readValue, henter, hmembers, hfinish]
    rfl
  writeText _ := rfl

/-! ### Fields -/

/-- The place up to which hints unfold fits into 32 bits with a sign, and the number of hints into
64 bits without. -/
structure InBounds (settings : Settings) : Prop where
  least : -Int.pow 2 31 ≤ settings.maxHintWords
  greatest : settings.maxHintWords < Int.pow 2 31
  maxHints : settings.maxHints < Nat.pow 2 64

/-- Numbers within the bounds have at most 64 bits. -/
theorem InBounds.fit (h : source.InBounds) :
    (-Int.pow 2 63 ≤ source.maxHintWords ∧ source.maxHintWords < Int.pow 2 64) ∧
      -Int.pow 2 63 ≤ (source.maxHints : Int) ∧ (source.maxHints : Int) < Int.pow 2 64 := by
  obtain ⟨hleast, hgreatest, hhints⟩ := h
  have hsigned : Int.pow 2 31 = 2147483648 ∧ Int.pow 2 63 = 9223372036854775808 := by decide
  have hunsigned : Int.pow 2 64 = 18446744073709551616 ∧ Nat.pow 2 64 = 18446744073709551616 := by
    decide
  omega

/-- The settings `target`, with some fields from `source`. -/
def copyAll (source : Settings) (fields : List Field) (target : Settings) : Settings :=
  fields.foldl (fun settings field => field.copy source settings) target

/-- The spellings of the value of a field. -/
def Field.Holds (field : Field) (settings : Settings) : List Char → Prop :=
  match field with
  | maxHintWords => SpellsInt settings.maxHintWords
  | maxHints => SpellsInt settings.maxHints
  | includeCommands => SpellsStrings settings.includeCommands
  | includePaths => SpellsStrings settings.includePaths
  | workingDirectory => SpellsOptional settings.workingDirectory
  | ignoredEntries => SpellsStrings settings.ignoredEntries
  | expandTypeCommands => SpellsBool settings.expandTypeCommands
  | platformPartKinds => SpellsStrings settings.platformPartKinds

/-- Every spelling of a value is read into its field. -/
theorem Field.reads (hjson : Documented json) (hbounds : source.InBounds)
    (h : field.Holds source text) (hrest : MayFollow rest) (target : Settings) :
    ReadsAs (field.read json target) (text ++ rest) (field.copy source target) rest := by
  obtain ⟨⟨hlow, hhigh⟩, hlowHints, hhighHints⟩ := hbounds.fit
  intro input hinput
  cases field with
  | maxHintWords =>
      exact (hjson.readInt hbounds.least (Int.le_sub_one_of_lt hbounds.greatest) hlow hhigh h hrest
        input hinput).map fun value => { target with maxHintWords := value }
  | maxHints =>
      exact (hjson.readInt (Int.natCast_nonneg _) (Int.le_sub_one_of_lt hhighHints) hlowHints
        hhighHints h hrest input hinput).map fun value => { target with maxHints := value.toNat }
  | includeCommands =>
      exact (hjson.readStrings h hrest input hinput).map fun texts =>
        { target with includeCommands := texts }
  | includePaths =>
      exact (hjson.readStrings h hrest input hinput).map fun texts =>
        { target with includePaths := texts }
  | workingDirectory =>
      exact (hjson.readOptionalString h hrest input hinput).map fun text? =>
        { target with workingDirectory := text? }
  | ignoredEntries =>
      exact (hjson.readStrings h hrest input hinput).map fun texts =>
        { target with ignoredEntries := texts }
  | expandTypeCommands =>
      exact (hjson.readBool h hrest input hinput).map fun value =>
        { target with expandTypeCommands := value }
  | platformPartKinds =>
      exact (hjson.readStrings h hrest input hinput).map fun texts =>
        { target with platformPartKinds := texts }

/-! ### Members -/

/-- A member of a settings text: a field of the settings, or one that is not known. -/
inductive IsMember (settings : Settings) : Option Field → List Char → Prop
  | known {field : Field} {name value : List Char} : Spells field.key name →
      field.Holds settings value → IsMember settings (some field) (name ++ ':' :: value)
  | unknown {key : String} {name value : List Char} : (∀ field : Field, field.key ≠ key) →
      Spells key name → IsValue value → IsMember settings none (name ++ ':' :: value)

/-- An object of some fields of the settings, in the order of the text, among members that are not
known. -/
def IsObject (settings : Settings) (fields : List Field) (text : List Char) : Prop :=
  ∃ marks members blanks, List.Forall₂ (IsMember settings) marks members ∧
    marks.reduceOption = fields ∧ AreBlank blanks ∧
    Padded ('{' :: (separate members ++ (blanks ++ ['}']))) text

/-- The members that are still to be read, the first of them without a comma if it is the first of
the object, and then `tail`. -/
def listed (first : Bool) (members : List (List Char)) (tail : List Char) : List Char :=
  if first then separate members ++ tail else followed members tail

@[simp] theorem listed_nil (first : Bool) (tail : List Char) : listed first [] tail = tail := by
  cases first <;> rfl

theorem listed_cons (first : Bool) (member : List Char) (members : List (List Char))
    (tail : List Char) : listed first (member :: members) tail =
      comma first ++ (member ++ listed false members tail) := by
  cases first with
  | true => exact separate_cons_append member members tail
  | false => rfl

/-- A member is visited by its name, and its value stands behind the colon. -/
theorem exists_visit (hjson : Documented json) {key : String} {name value : List Char}
    (hname : Spells key name) {first : Bool}
    (hinput : skipBlanks input = skipBlanks (comma first ++ (name ++ ':' :: value ++ rest))) :
    ∃ named before, json.nextName first input = .ok (some key, named) ∧
      json.colon named = .ok before ∧ skipBlanks before = skipBlanks (value ++ rest) := by
  rw [List.append_assoc, List.cons_append] at hinput
  obtain ⟨named, hnext, hnamed⟩ := hjson.nextName first _ hname input hinput
  obtain ⟨before, hcolon, hbefore⟩ := hjson.colon (hnamed.trans (skipBlanks_cons rfl _))
  exact ⟨named, before, hnext, hcolon, hbefore⟩

/-- The members are visited one after the other, up to the end of the object. -/
theorem visits_listed (hjson : Documented json) (hbounds : source.InBounds)
    (h : List.Forall₂ (IsMember source) marks members) (htail : skipBlanks tail = '}' :: rest)
    {first : Bool} (hinput : skipBlanks input = skipBlanks (listed first members tail)) :
    ∃ left, Visits json target first input marks (source.copyAll marks.reduceOption target) left ∧
      skipBlanks left = skipBlanks rest := by
  induction h generalizing target first input with
  | nil =>
      rw [listed_nil, htail, ← skipBlanks_cons (c := '}') rfl] at hinput
      obtain ⟨left, hclose, hleft⟩ := hjson.nextName_close first rest input hinput
      exact ⟨left, .close hclose, hleft⟩
  | @cons mark member marks members hmember _ ih =>
      have hfollow : MayFollow (listed false members tail) :=
        mayFollow_followed (mayFollow_of_skipBlanks htail (.inr (.inr rfl)))
      rw [listed_cons] at hinput
      cases hmember with
      | @known field name value hname hvalue =>
          obtain ⟨named, before, hnext, hcolon, hbefore⟩ := exists_visit hjson hname hinput
          obtain ⟨behind, hread, hbehind⟩ :=
            field.reads hjson hbounds hvalue hfollow target before hbefore
          obtain ⟨left, hvisits, hleft⟩ := ih hbehind
          exact ⟨left, .field hnext hcolon hread hvisits, hleft⟩
      | @unknown key name value hkey hname hvalue =>
          obtain ⟨named, before, hnext, hcolon, hbefore⟩ := exists_visit hjson hname hinput
          obtain ⟨behind, hskip, hbehind⟩ := hjson.skip hvalue hfollow hbefore
          obtain ⟨left, hvisits, hleft⟩ := ih hbehind
          exact ⟨left, .other hnext hkey hcolon hskip hvisits, hleft⟩

/-! ### Whole texts -/

/-- An object of some fields is read as the defaults with these fields. -/
theorem ofText_of_isObject (hjson : Documented json) (hcodec : codec.Documented json)
    {text : String} (hbounds : source.InBounds) (h : source.IsObject fields text.toList)
    (hnodup : fields.Nodup) : ofText codec text = .ok (source.copyAll fields {}) := by
  obtain ⟨marks, members, blanks, hmembers, rfl, hblanks, hpadded⟩ := h
  generalize htext : text.toList = chars at hpadded
  obtain @⟨left, right, hleft, hright⟩ := hpadded
  have hclose := skipBlanks_append_cons (c := '}') hblanks rfl right
  have hopen : skipBlanks text.toList = '{' :: listed true members (blanks ++ '}' :: right) := by
    rw [htext, List.append_assoc, skipBlanks_append hleft, List.cons_append, List.append_assoc,
      List.append_assoc, List.singleton_append, skipBlanks_cons rfl]
    rfl
  have hlength : marks.length ≤ text.toList.length := by
    have hle : members.length ≤ (separate members ++ (blanks ++ ['}'])).length :=
      length_le_separate members (List.append_ne_nil_of_right_ne_nil _ (List.cons_ne_nil _ _))
    rw [hmembers.length_eq, htext, List.length_append, List.length_append, List.length_cons]
    omega
  obtain ⟨input, henter, hinput⟩ := hjson.enter hopen
  obtain ⟨last, hvisits, hlast⟩ := visits_listed hjson hbounds hmembers hclose hinput
  have hfinish := hjson.finish (hlast.trans (List.dropWhile_eq_nil_iff.2 hright))
  exact hcodec.readText henter hvisits hnodup hlength hfinish

/-! ### Writing -/

theorem Field.holds_write (hjson : Documented json) (hbounds : source.InBounds) (field : Field) :
    field.Holds source (field.write json source) := by
  obtain ⟨⟨hlow, hhigh⟩, hlowHints, hhighHints⟩ := hbounds.fit
  cases field with
  | maxHintWords => exact hjson.writeInt hlow hhigh
  | maxHints => exact hjson.writeInt hlowHints hhighHints
  | includeCommands | includePaths | ignoredEntries | platformPartKinds =>
      exact hjson.writeStrings _
  | workingDirectory => exact hjson.writeOptionalString _
  | expandTypeCommands => exact hjson.writeBool _

/-- A value may have further blanks around it. -/
theorem Field.Holds.padded {value : List Char} (h : field.Holds source value)
    (hpadded : Padded value text) : field.Holds source text := by
  cases field with
  | maxHintWords | maxHints | expandTypeCommands => exact Padded.trans h hpadded
  | includeCommands | includePaths | ignoredEntries | platformPartKinds =>
      exact SpellsStrings.padded h hpadded
  | workingDirectory => exact SpellsOptional.padded h hpadded

/-- An object that is written of some fields is an object of these fields. -/
theorem isObject_write (hjson : Documented json) (hbounds : source.InBounds)
    (fields : List Field) :
    source.IsObject fields
      (json.writeObject (fields.map fun field => (field.key, field.write json source))) := by
  obtain ⟨texts, blanks, htexts, hblanks, hpadded⟩ :=
    hjson.writeObject (fields.map fun field => (field.key, field.write json source))
  refine ⟨fields.map some, texts, blanks, ?_, ?_, hblanks, hpadded⟩
  · rw [List.forall₂_map_left_iff] at htexts ⊢
    refine htexts.imp ?_
    rintro field _ ⟨name, value, hname, hvalue, rfl⟩
    exact .known hname ((field.holds_write hjson hbounds).padded hvalue)
  · rw [List.reduceOption, List.filterMap_map]
    exact List.filterMap_some

theorem copyAll_all (source target : Settings) : source.copyAll Field.all target = source := by
  simp only [copyAll, Field.all, List.foldl_cons, List.foldl_nil, Field.copy]

/-- With a package and a codec that do as they are documented to, reading undoes writing, field by
field: an object of some fields gives the defaults with these fields, whatever their order is and
whatever stands between them.  What is written for some fields is such an object, and what is
written for all of them gives the settings back. -/
theorem ofText_isObject (hjson : Documented json) (hcodec : codec.Documented json)
    (hbounds : source.InBounds) :
    (∀ (fields : List Field) (text : String), fields.Nodup → source.IsObject fields text.toList →
        ofText codec text = .ok (source.copyAll fields {})) ∧
      (∀ fields : List Field, source.IsObject fields
        (json.writeObject (fields.map fun field => (field.key, field.write json source)))) ∧
      ofText codec (codec.writeText source) = .ok source := by
  refine ⟨fun fields text hnodup h => ofText_of_isObject hjson hcodec hbounds h hnodup,
    isObject_write hjson hbounds, ?_⟩
  have h : source.IsObject Field.all (codec.writeText source).toList := by
    rw [hcodec.writeText, String.toList_ofList]
    exact isObject_write hjson hbounds Field.all
  rw [ofText_of_isObject hjson hcodec hbounds h (by decide), copyAll_all]

/-- Settings of a project with a shared directory. -/
def sharedSettings : Settings :=
  { maxHintWords := -Int.pow 2 31
    includePaths := [".", "shared\\\"A\""]
    workingDirectory := some "/" }

/-- A text of two of their fields, the first under a name with an escape.  A member that is not
known stands between them. -/
def sharedText : String :=
  "\t\x7b \"\\u0069nclude_paths\":[\".\",\"shared\\\\\\\"A\\\"\"],\"note\":[null,-1.5E+3 ]," ++
    "\"max_syntax_word_index\":-2147483648\n\x7d\n"

theorem spells_includePaths : Spells Field.includePaths.key " \"\\u0069nclude_paths\"".toList := by
  have hzero : IsHexDigit '0' 0 := isHexDigit_hexDigit (by decide)
  have hsix : IsHexDigit '6' 6 := isHexDigit_hexDigit (by decide)
  have hnine : IsHexDigit '9' 9 := isHexDigit_hexDigit (by decide)
  have hblank : AreBlank [' '] := by decide
  exact ⟨_, .cons (.unit (.digits hzero hzero hsix hnine))
    (spellsChars_writeChar "nclude_paths".toList), .pad hblank areBlank_nil⟩

theorem isValue_note : IsValue "[null,-1.5E+3 ]".toList := by
  have hwhole : IsWhole ['1'] := ⟨by decide, fun _ h => (List.cons_eq_cons.1 h).2.symm⟩
  have hfraction : SpellsFraction _ ['.', '5'] := .present (by decide)
  have hexponent : SpellsExponent (some (false, ['3'])) ('E' :: (['+'] ++ ['3'])) :=
    .present (by decide) (by decide) (by decide)
  have hnumber : IsValue "-1.5E+3".toList := .number (.negative (.parts hwhole hfraction hexponent))
  have hitems : ∀ item ∈ ["null".toList, "-1.5E+3".toList], IsValue item :=
    List.forall_mem_cons.2 ⟨.null, List.forall_mem_singleton.2 hnumber⟩
  have hblank : AreBlank [' '] := by decide
  exact .array hitems hblank

theorem isObject_sharedText :
    sharedSettings.IsObject [.includePaths, .maxHintWords] sharedText.toList := by
  have hpaths : sharedSettings.IsMember (some .includePaths) _ :=
    .known spells_includePaths (spellsStrings_writeStrings sharedSettings.includePaths)
  have hnew : ∀ field : Field, field.key ≠ "note" := by
    intro field
    cases field <;> decide
  have hnote : sharedSettings.IsMember none _ :=
    .unknown hnew (spells_writeString "note") isValue_note
  have hwords : sharedSettings.IsMember (some .maxHintWords) _ :=
    .known (spells_writeString _) (spellsInt_writeInt sharedSettings.maxHintWords)
  have hmembers : List.Forall₂ sharedSettings.IsMember _ _ :=
    .cons hpaths (.cons hnote (.cons hwords .nil))
  have htab : AreBlank ['\t'] := by decide
  have hline : AreBlank ['\n'] := by decide
  refine ⟨_, _, _, hmembers, rfl, hline, ?_⟩
  refine Eq.subst ?_ (Padded.pad htab hline)
  decide

/-- The package that scans and its codec read the fields that stand in the text, and the directory
is the one of the defaults. -/
theorem ofText_isObject_sharedText :
    Documented scanner ∧ (codecOf scanner).Documented scanner ∧ sharedSettings.InBounds ∧
      [Field.includePaths, Field.maxHintWords].Nodup ∧
      sharedSettings.IsObject [.includePaths, .maxHintWords] sharedText.toList ∧
      ofText (codecOf scanner) sharedText =
        .ok { maxHintWords := -Int.pow 2 31, includePaths := [".", "shared\\\"A\""] } ∧
      ofText (codecOf scanner) ((codecOf scanner).writeText sharedSettings) =
        .ok sharedSettings := by
  have hbounds : sharedSettings.InBounds := ⟨by decide, by decide, by decide⟩
  have hnodup : [Field.includePaths, Field.maxHintWords].Nodup := by decide
  have hcodec := documented_codecOf scanner
  obtain ⟨hpart, -, hwhole⟩ := ofText_isObject documented_scanner hcodec hbounds
  exact ⟨documented_scanner, hcodec, hbounds, hnodup, isObject_sharedText,
    hpart _ _ hnodup isObject_sharedText, hwhole⟩

end Settings

end Typeahead
