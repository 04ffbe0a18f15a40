/-
Commands that include a file.

After such a command the second word is completed as a path.  Whether a request is one for a path is
told from the first word, the path that is looked up is the second word, and what an accepted path
replaces is the word at the cursor.  The three go together exactly if the cursor is at the second
word: at the command itself every file is offered in its place, and behind the second word its paths
are offered in place of a later word.

Main definitions:

* `Typeahead.Reading.LooksUp` — the path that is looked up;
* `Typeahead.Completion.Replaces` — an answer replaces the word with a given number.

Main results:

* `Typeahead.Language.suggest_isInclude` — the answer to a request for a path, and that it replaces
  the second word exactly if the cursor is there;
* `Typeahead.Language.not_suggest_isInclude_second` — the cursor may be elsewhere.
-/

import Typeahead.Proofs.WordSpans

set_option relaxedAutoImplicit false
set_option autoImplicit false

namespace Typeahead

namespace Reading

open Text

variable {text : List Char} {cursor number : Nat} {typed : List Char} {span : Span}

/-- The path that is looked up with the cursor at the word with the given number: none at the
command itself, what is typed of the second word at the cursor, and the whole second word behind
it. -/
inductive LooksUp (text : List Char) : Nat → List Char → String → Prop
  | command {typed : List Char} : LooksUp text 0 typed ""
  | second {typed : List Char} : LooksUp text 1 typed (String.ofList typed)
  | behind {number : Nat} {typed before word after : List Char} : 2 ≤ number →
      HasWord text 1 before word after → LooksUp text number typed (String.ofList word)

theorem LooksUp.eq_of_second {path : String} (h : LooksUp text number typed path)
    (hnumber : number = 1) : path = String.ofList typed := by
  cases h with
  | command => cases hnumber
  | second => rfl
  | behind hle => omega

/-- The words of a request for a path: nothing is forgotten of them behind the command. -/
theorem words_of_isInclude {text : String} {commands : List String}
    (h : (ofText text cursor .suggest commands).query.isInclude commands = true)
    (hcursor : AtCursor text.toList cursor number typed span) :
    ∃ last : String, (ofText text cursor .suggest commands).query =
        ⟨(finishedWords (visible text.toList cursor)).map String.ofList ++ [last], number,
          .suggest⟩ ∧
      (number ≠ 0 → last = String.ofList typed) := by
  obtain ⟨rfl, rfl, -⟩ := hcursor.reading_eq
  have hwords : (typedWords text.toList cursor).map String.ofList =
      (finishedWords (visible text.toList cursor)).map String.ofList ++
        [String.ofList (lastField (visible text.toList cursor))] := by
    rw [typedWords, List.map_append, List.map_singleton]
  have hmode : (Mode.suggest == Mode.hint) = false := rfl
  simp only [ofText, hwords, List.dropLast_concat, List.length_append, List.length_singleton,
    List.length_map, Nat.add_sub_cancel, hmode, Bool.false_or] at h ⊢
  split at h
  · next hkept =>
      rw [if_pos hkept]
      exact ⟨_, rfl, fun _ => rfl⟩
  · next hkept =>
      rw [if_neg hkept]
      refine ⟨"", rfl, ?_⟩
      -- only the command itself can be forgotten
      intro hnumber
      refine absurd ?_ hkept
      obtain ⟨first, rest, hfinished⟩ := List.exists_cons_of_length_pos (Nat.pos_of_ne_zero hnumber)
      simp only [hfinished, List.map_cons, List.cons_append, Query.isInclude] at h ⊢
      exact h

/-- The second of the typed words is looked up. -/
theorem looksUp_of_isInclude {text : String} {commands : List String}
    (h : (ofText text cursor .suggest commands).query.isInclude commands = true)
    (hcursor : AtCursor text.toList cursor number typed span) :
    LooksUp text.toList number typed
      ((ofText text cursor .suggest commands).query.words[1]?.getD "") := by
  obtain ⟨last, hquery, hlast⟩ := words_of_isInclude h hcursor
  rw [hquery]
  obtain ⟨hnumber, -⟩ := hcursor.reading_eq
  match hfinished : finishedWords (visible text.toList cursor) with
  | [] =>
      rw [hfinished] at hnumber
      obtain rfl : number = 0 := hnumber.symm
      exact .command
  | [command] =>
      rw [hfinished] at hnumber
      obtain rfl : number = 1 := hnumber.symm
      obtain rfl := hlast Nat.one_ne_zero
      exact .second
  | command :: word :: rest =>
      have hword : (finishedWords (visible text.toList cursor))[1]? = some word := by
        rw [hfinished]
        rfl
      obtain ⟨before, after, hhas⟩ := exists_hasWord_of_finishedWords hword
      rw [hfinished] at hnumber
      exact .behind (by rw [← hnumber]; simp) hhas

end Reading

/-- The answer replaces the word with the given number, or stands where that word would start. -/
def Completion.Replaces (answer : Completion) (text : String) (number : Nat) : Prop :=
  ∃ cursor typed span, Reading.AtCursor text.toList cursor number typed span ∧
    answer.insertPosition = span.start ∧ answer.replaceLength = span.length

theorem Span.ext_length {span span' : Span} (hle : span.start ≤ span.stop)
    (hle' : span'.start ≤ span'.stop) (hstart : span.start = span'.start)
    (hlength : span.length = span'.length) : span = span' := by
  cases span
  cases span'
  simp only [length, Span.mk.injEq] at *
  omega

namespace Language

open Reading

variable {language : Language} {request : Request}

/-- The answer that offers the paths for a text in place of a span. -/
def pathCompletion (language : Language) (files : FileTree) (path : String) (span : Span) :
    Completion :=
  let found := Include.offers files language.settings path
  { suggestions := found.suggestions
    insertPosition := span.start
    replaceLength := span.length
    partialToken := found.partialToken }

/-- A request for a path is answered with the paths for the second word, in place of the word at the
cursor.  This replaces the second word exactly if the cursor is there, and then the paths are those
for what is typed of it before the cursor. -/
theorem suggest_isInclude (files : FileTree)
    (h : (language.suggestQuery request).isInclude language.settings.includeCommands = true) :
    ∃ number typed span path,
      AtCursor request.text.toList request.cursor number typed span ∧
      LooksUp request.text.toList number typed path ∧
      (language.suggestQuery request).active = number ∧
      language.suggest files request = some (language.pathCompletion files path span) ∧
      ((language.pathCompletion files path span).Replaces request.text 1 ↔ number = 1) := by
  obtain ⟨number, typed, span, hcursor⟩ := exists_atCursor request.text.toList request.cursor
  obtain ⟨last, hquery, -⟩ := words_of_isInclude h hcursor
  refine ⟨number, typed, span, _, hcursor, looksUp_of_isInclude h hcursor, ?_, ?_, ?_, ?_⟩
  · rw [suggestQuery, hquery]
  · have hspan : (ofText request.text request.cursor .suggest
        language.settings.includeCommands).span = span := hcursor.reading_eq.2.2
    rw [suggestQuery] at h
    simp only [suggest, h, if_true, hspan, pathCompletion]
  · rintro ⟨cursor', typed', span', hcursor', hstart, hlength⟩
    refine hcursor.number_eq hcursor' (Span.ext_length hcursor.start_le_stop
      hcursor'.start_le_stop hstart hlength)
  · rintro rfl
    exact ⟨_, _, _, hcursor, rfl, rfl⟩

/-- A directory with one file. -/
def platformFiles : FileTree where
  objects := [(["root"], .directory), (["root", "platforms.txt"], .file ⟨#[]⟩ 0)]
  current := ["root"]

/-- The request behind `include` and the start of a name. -/
def pathRequest : Request := .atEnd "include pla" [] none

/-- Behind `include pla` the file is offered in place of the second word. -/
theorem suggest_isInclude_platformFiles :
    ∃ answer, Language.suggest {} platformFiles pathRequest = some answer ∧
      answer.suggestions = ["platforms.txt"] ∧ answer.Replaces pathRequest.text 1 := by
  have hinclude : (Language.suggestQuery {} pathRequest).isInclude
      ({} : Settings).includeCommands = true := by decide +kernel
  have hlength : (Text.finishedWords
      (visible pathRequest.text.toList pathRequest.cursor)).length = 1 := by decide +kernel
  have htyped : String.ofList (Text.lastField
      (visible pathRequest.text.toList pathRequest.cursor)) = "pla" := by decide +kernel
  have hoffers : (Include.offers platformFiles {} "pla").suggestions = ["platforms.txt"] := by
    decide +kernel
  obtain ⟨number, typed, span, path, hcursor, hpath, -, hanswer, hreplaces⟩ :=
    suggest_isInclude platformFiles hinclude
  obtain ⟨rfl, rfl, -⟩ := hcursor.reading_eq
  obtain rfl := hpath.eq_of_second hlength
  rw [htyped] at hanswer hreplaces
  exact ⟨_, hanswer, hoffers, hreplaces.2 hlength⟩

/-- With the cursor at the command the file is offered as well, in place of the command. -/
theorem not_suggest_isInclude_second :
    ¬ ∀ (language : Language) (files : FileTree) (request : Request) (answer : Completion),
      (language.suggestQuery request).isInclude language.settings.includeCommands = true →
      language.suggest files request = some answer → answer.suggestions ≠ [] →
      (language.suggestQuery request).active = 1 := by
  intro h
  have hinclude : (Language.suggestQuery {} (.atEnd "include" [] none)).isInclude
      ({} : Settings).includeCommands = true := by decide +kernel
  have hsuggest : (Language.suggest {} platformFiles (.atEnd "include" [] none)).map
      (·.suggestions) = some ["platforms.txt"] := by decide +kernel
  obtain ⟨answer, hanswer, hsuggestions⟩ := Option.map_eq_some_iff.1 hsuggest
  have hactive := h {} platformFiles (.atEnd "include" [] none) answer hinclude hanswer
    (by rw [hsuggestions]; exact List.cons_ne_nil _ _)
  exact absurd hactive (by decide +kernel)

end Language

end Typeahead
