/-
What the user has typed so far, word by word.

A query holds the words up to the cursor; the last one, the active word, is still being typed, so
a text agrees with it as soon as one of the two begins the other.  Every earlier word is fixed.

Main definitions:

* `Typeahead.Query` — the words, the place of the active one, and what is asked for;
* `Typeahead.agreeSoFar` — two texts agree as far as both go;
* `Typeahead.Query.accepts` — a text may stand at a given place of the query;
* `Typeahead.Query.listsNamesAt` — the place where known names are listed one by one;
* `Typeahead.Query.isInclude` — the query names a file to include.

Main results:

* `Typeahead.agreeSoFar_iff` — agreement means that one text begins the other.
-/

set_option relaxedAutoImplicit false
set_option autoImplicit false

namespace Typeahead

/-- What is asked for: words that may be typed next, or the shape of the whole command. -/
inductive Mode where
  | suggest
  | hint
  deriving DecidableEq, Repr

/-- The words typed up to the cursor. -/
structure Query where
  words : List String
  /-- The place of the word at the cursor. -/
  active : Nat
  mode : Mode
  deriving DecidableEq, Repr

/-- The two texts have the same characters as far as both go. -/
def agreeSoFar (text typed : String) : Bool :=
  (text.toList.zip typed.toList).all fun p => p.1 == p.2

theorem all_zip_eq_iff (as bs : List Char) :
    (as.zip bs).all (fun p => p.1 == p.2) = true ↔ as <+: bs ∨ bs <+: as := by
  induction as generalizing bs with
  | nil => simp
  | cons a as ih =>
      cases bs with
      | nil => simp
      | cons b bs =>
          simp only [List.zip_cons_cons, List.all_cons, Bool.and_eq_true, beq_iff_eq, ih,
            List.cons_prefix_cons]
          constructor
          · rintro ⟨rfl, h | h⟩
            · exact .inl ⟨rfl, h⟩
            · exact .inr ⟨rfl, h⟩
          · rintro (⟨rfl, h⟩ | ⟨rfl, h⟩)
            · exact ⟨rfl, .inl h⟩
            · exact ⟨rfl, .inr h⟩

theorem agreeSoFar_iff (text typed : String) :
    agreeSoFar text typed = true ↔ text.toList <+: typed.toList ∨ typed.toList <+: text.toList :=
  all_zip_eq_iff _ _

namespace Query

/-- Whether `text` may stand at place `index`: the active word only has to agree so far, an
earlier word has to be the same, and nothing is asked beyond the typed words. -/
def accepts (query : Query) (text : String) (index : Nat) : Bool :=
  match query.words[index]? with
  | none => true
  | some word => if index = query.active then agreeSoFar text word else text == word

/-- Known names are listed one by one at the active word of a request for suggestions only. -/
def listsNamesAt (query : Query) (index : Int) : Bool :=
  query.mode == .suggest && index == (query.active : Int)

/-- The first word is one of the commands that take a file to include. -/
def isInclude (query : Query) (commands : List String) : Bool :=
  match query.words with
  | [] => false
  | first :: _ => commands.contains first

end Query

end Typeahead
