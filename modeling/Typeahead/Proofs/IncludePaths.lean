/-
The paths offered for an include command.

A typed path is cut behind its last slash of either kind.  What is in front names a directory, and is
written with plain slashes; what is behind begins the name of an entry.  Every include path leads to a
place where the directory is looked for, and the entries found in all these places are put together:
the same name may stand for a directory in one place and for a file in another, and is then offered
with a slash and without.  Since no name has a slash in it, the slash at the end tells a directory.

Main definitions:

* `Typeahead.Include.Cuts` — a typed path is a directory and the start of a name;
* `Typeahead.Include.Scans` — an entry that is looked at;
* `Typeahead.Include.Offered` — a text that is offered for an entry.

Main results:

* `Typeahead.Include.cutPath_eq_iff` — a path is cut in one way;
* `Typeahead.Include.offers_ranked` — the offers are those texts in order, and one of them may be
  typed on if it ends with a slash.
-/

import Typeahead.Files.Include
import Typeahead.Proofs.PathResolution
import Typeahead.Proofs.Sorting

set_option relaxedAutoImplicit false
set_option autoImplicit false

namespace Typeahead

namespace Include

variable {files : FileTree} {settings : Settings} {text directory start path name : String}

/-! ### Cutting a typed path -/

/-- A typed text is a directory, which is empty or ends with a slash, and a start of a name, which has
no slash.  The directory is written with plain slashes. -/
def Cuts (text directory start : String) : Prop :=
  ∃ typed, text.toList = typed ++ start.toList ∧
    (∀ c ∈ typed.getLast?, isSlash c = true) ∧ (∀ c ∈ start.toList, isSlash c = false) ∧
    directory.toList = typed.map fun c => if c = '\\' then '/' else c

/-- A text is cut in one way. -/
theorem cutPath_eq_iff : cutPath text = (directory, start) ↔ Cuts text directory start := by
  simp only [cutPath, Prod.mk.injEq, ← String.toList_inj, String.toList_ofList, beq_iff_eq, Cuts]
  constructor
  · rintro ⟨hdirectory, hstart⟩
    refine ⟨_, ?_, ?_, ?_, hdirectory.symm⟩
    · rw [← hstart, ← List.reverse_append, List.takeWhile_append_dropWhile, List.reverse_reverse]
    · intro c hc
      rw [List.getLast?_reverse] at hc
      have hnot := List.head?_dropWhile_not (fun c => !isSlash c) text.toList.reverse
      rw [hc] at hnot
      simpa using hnot
    · intro c hc
      rw [← hstart, List.mem_reverse] at hc
      simpa using List.all_eq_true.1 List.all_takeWhile c hc
  · rintro ⟨typed, htext, hslash, hplain, hdirectory⟩
    have hpass : ∀ c ∈ start.toList.reverse, (!isSlash c) = true := by
      intro c hc
      rw [hplain c (List.mem_reverse.1 hc)]
      rfl
    -- read backwards, the first slash is the last character of the directory
    have hstop : typed.reverse.takeWhile (fun c => !isSlash c) = [] ∧
        typed.reverse.dropWhile (fun c => !isSlash c) = typed.reverse := by
      cases htyped : typed.reverse with
      | nil => exact ⟨rfl, rfl⟩
      | cons c rest =>
          have hc : isSlash c = true := hslash c (by
            rw [← List.head?_reverse, htyped]
            rfl)
          simp [hc]
    rw [htext, List.reverse_append, List.takeWhile_append_of_pos hpass,
      List.dropWhile_append_of_pos hpass, hstop.1, hstop.2, List.append_nil, List.reverse_reverse,
      List.reverse_reverse]
    exact ⟨hdirectory.symm, rfl⟩

/-! ### Entries that are looked at -/

/-- The entry of that name is looked at in the directory at `path`: an include path below the base
directory leads there, followed by the typed directory, and the name begins as typed. -/
structure Scans (files : FileTree) (settings : Settings) (directory start path name : String) :
    Prop where
  searched : ∃ includePath ∈ settings.includePaths,
    path = Path.join (Path.join (baseDirectory files settings) includePath) directory
  entry : ∃ location, files.LeadsTo path location ∧ files.hasDirectory location = true ∧
    files.HasEntry location name
  begins : start.toList <+: name.toList

/-- The text is offered for some entry: with a slash for one that leads to a directory which is not
ignored, and as it is for any other. -/
def Offered (files : FileTree) (settings : Settings) (directory start text : String) : Prop :=
  ∃ path name, Scans files settings directory start path name ∧
    ((files.LeadsToDirectory (Path.join path name) ∧ name ∉ settings.ignoredEntries ∧
        text = directory ++ name ++ "/") ∨
      (¬ files.LeadsToDirectory (Path.join path name) ∧ text = directory ++ name))

theorem offer?_eq_some_iff {slash : Bool} :
    offer? files settings directory path name = some (text, slash) ↔
      (files.LeadsToDirectory (Path.join path name) ∧ name ∉ settings.ignoredEntries ∧
        text = directory ++ name ++ "/" ∧ slash = true) ∨
      (¬ files.LeadsToDirectory (Path.join path name) ∧ text = directory ++ name ∧
        slash = false) := by
  rw [offer?, ← FileTree.isDirectory_iff]
  split
  · next hdirectory =>
      split
      · next hignored => simp [hdirectory, List.contains_iff_mem.1 hignored]
      · next hignored =>
          have hmem : name ∉ settings.ignoredEntries := by simpa using hignored
          simp [hdirectory, hmem, eq_comm]
  · next hdirectory => simp [hdirectory, eq_comm]

theorem mem_offersIn_iff {slash : Bool} :
    (text, slash) ∈ offersIn files settings directory start path ↔
      ∃ location, files.LeadsTo path location ∧ files.hasDirectory location = true ∧
        ∃ name, files.HasEntry location name ∧ start.toList <+: name.toList ∧
          offer? files settings directory path name = some (text, slash) := by
  simp only [← FileTree.locate_eq_ok_iff, offersIn]
  cases files.locate path with
  | error error => simp
  | ok location =>
      simp only [Except.ok.injEq, exists_eq_left']
      split
      · next hdirectory =>
          simp only [hdirectory, true_and, List.mem_filterMap, List.mem_filter,
            FileTree.mem_entryNames, String.startsWith_string_iff, and_assoc]
      · next hdirectory => simp [hdirectory]

/-- The offers of all include paths are those of the entries that are looked at. -/
theorem mem_flatMap_offersIn_iff {slash : Bool} :
    (text, slash) ∈ (searchPaths files settings directory).flatMap
        (offersIn files settings directory start) ↔
      ∃ path name, Scans files settings directory start path name ∧
        offer? files settings directory path name = some (text, slash) := by
  simp only [List.mem_flatMap, searchPaths, List.mem_map, mem_offersIn_iff]
  constructor
  · rintro ⟨path, ⟨includePath, hmem, rfl⟩, location, hleads, hdirectory, name, hentry, hbegins,
      hoffer⟩
    exact ⟨_, name, ⟨⟨includePath, hmem, rfl⟩, ⟨location, hleads, hdirectory, hentry⟩, hbegins⟩,
      hoffer⟩
  · rintro ⟨path, name, ⟨⟨includePath, hmem, rfl⟩, ⟨location, hleads, hdirectory, hentry⟩, hbegins⟩,
      hoffer⟩
    exact ⟨_, ⟨includePath, hmem, rfl⟩, location, hleads, hdirectory, name, hentry, hbegins,
      hoffer⟩

theorem offered_iff_exists :
    Offered files settings directory start text ↔
      ∃ slash, (text, slash) ∈ (searchPaths files settings directory).flatMap
        (offersIn files settings directory start) := by
  simp only [mem_flatMap_offersIn_iff, offer?_eq_some_iff]
  constructor
  · rintro ⟨path, name, hscans, ⟨hdirectory, hmem, htext⟩ | ⟨hplain, htext⟩⟩
    · exact ⟨true, path, name, hscans, .inl ⟨hdirectory, hmem, htext, rfl⟩⟩
    · exact ⟨false, path, name, hscans, .inr ⟨hplain, htext, rfl⟩⟩
  · rintro ⟨slash, path, name, hscans, ⟨hdirectory, hmem, htext, -⟩ | ⟨hplain, htext, -⟩⟩
    · exact ⟨path, name, hscans, .inl ⟨hdirectory, hmem, htext⟩⟩
    · exact ⟨path, name, hscans, .inr ⟨hplain, htext⟩⟩

/-- An offered text ends with a slash exactly if it is offered for a directory. -/
theorem endsWith_slash_iff (hnames : files.ProperNames) {slash : Bool}
    (h : (text, slash) ∈ (searchPaths files settings directory).flatMap
      (offersIn files settings directory start)) :
    text.endsWith '/' = true ↔ slash = true := by
  obtain ⟨path, name, hscans, hoffer⟩ := mem_flatMap_offersIn_iff.1 h
  rw [String.endsWith_char_iff_exists_append]
  rcases offer?_eq_some_iff.1 hoffer with ⟨-, -, rfl, rfl⟩ | ⟨-, rfl, rfl⟩
  · exact iff_of_true ⟨_, rfl⟩ rfl
  · obtain ⟨location, -, -, hentry⟩ := hscans.entry
    obtain ⟨hname, hslash⟩ := hnames.of_hasEntry hentry
    refine iff_of_false ?_ Bool.false_ne_true
    rintro ⟨before, heq⟩
    -- the last character of the text is the last one of the name
    have hlast : (directory.toList ++ name.toList).getLast? = some '/' := by
      rw [← String.toList_append, heq, String.toList_append, String.toList_singleton,
        List.getLast?_concat]
    rw [List.getLast?_append_of_ne_nil _ (String.toList_eq_nil_iff.not.2 hname)] at hlast
    exact hslash (List.mem_of_getLast? hlast)

/-- The paths offered for a typed text, which is cut into a directory and the start of a name in one
way, are the texts that are offered for some entry, in strictly increasing order.  Typing may go on
inside the word exactly if one of them ends with a slash. -/
theorem offers_ranked (settings : Settings) (text : String) (hnames : files.ProperNames) :
    ∃ directory start,
      (∀ directory' start', Cuts text directory' start' ↔
        directory' = directory ∧ start' = start) ∧
      (offers files settings text).suggestions.Pairwise (fun a b => Ranking.compare a b = .lt) ∧
      (∀ path, path ∈ (offers files settings text).suggestions ↔
        Offered files settings directory start path) ∧
      ((offers files settings text).partialToken = true ↔
        ∃ path ∈ (offers files settings text).suggestions, path.endsWith '/' = true) := by
  obtain ⟨directory, start, hcut⟩ : ∃ directory start, cutPath text = (directory, start) :=
    ⟨_, _, rfl⟩
  have hoffered : ∀ path, path ∈ (offers files settings text).suggestions ↔
      Offered files settings directory start path := by
    intro path
    simp only [offers, hcut, Ranking.mem_rank, offered_iff_exists, List.mem_map, Prod.exists,
      exists_and_right, exists_eq_right]
  refine ⟨directory, start, ?_, ?_, hoffered, ?_⟩
  · intro directory' start'
    rw [← cutPath_eq_iff, hcut, Prod.mk.injEq, eq_comm (a := directory), eq_comm (a := start)]
  · simp only [offers, hcut]
    exact pairwise_sortedUnique _
  · simp only [hoffered, offered_iff_exists]
    simp only [offers, hcut, List.any_eq_true, Prod.exists, exists_eq_right]
    constructor
    · rintro ⟨path, hmem⟩
      exact ⟨path, ⟨true, hmem⟩, (endsWith_slash_iff hnames hmem).2 rfl⟩
    · rintro ⟨path, ⟨slash, hmem⟩, hends⟩
      obtain rfl := (endsWith_slash_iff hnames hmem).1 hends
      exact ⟨path, hmem⟩

/-- Two include paths with a directory `sub` each: in `a` the name `plan` stands for a file, and in `b`
for a link to a directory. -/
def planFiles : FileTree where
  objects := [(["root"], .directory), (["root", "a"], .directory), (["root", "b"], .directory),
    (["root", "a", "sub"], .directory), (["root", "a", "sub", "plan"], .file ⟨#[]⟩ 0),
    (["root", "b", "sub"], .directory), (["root", "b", "sub", "plan"], .link "../../data"),
    (["root", "b", "sub", "plots"], .directory), (["root", "data"], .directory)]
  current := ["root"]

/-- The include paths `a` and `b`, and directories `plots` left out. -/
def planSettings : Settings where
  includePaths := ["a", "b"]
  ignoredEntries := ["plots"]

/-- For `sub\pl` the plan is offered as a file and as a directory. -/
theorem offers_ranked_planFiles :
    planFiles.ProperNames ∧
      (∀ path, Offered planFiles planSettings "sub/" "pl" path ↔
        path = "sub/plan" ∨ path = "sub/plan/") ∧
      ∃ path ∈ (offers planFiles planSettings "sub\\pl").suggestions, path.endsWith '/' = true := by
  have hnames : planFiles.ProperNames := by
    simp only [FileTree.ProperNames]
    decide
  have hcut : Cuts "sub\\pl" "sub/" "pl" := by
    rw [← cutPath_eq_iff]
    decide +kernel
  have hfound : (searchPaths planFiles planSettings "sub/").flatMap
      (offersIn planFiles planSettings "sub/" "pl") =
        [("sub/plan", false), ("sub/plan/", true)] := by decide +kernel
  obtain ⟨directory, start, hunique, -, -, hpartial⟩ :=
    offers_ranked planSettings "sub\\pl" hnames
  obtain ⟨rfl, rfl⟩ := (hunique _ _).1 hcut
  refine ⟨hnames, ?_, hpartial.1 ?_⟩
  · intro path
    simp [offered_iff_exists, hfound]
  · rw [offers, cutPath_eq_iff.2 hcut]
    simp [hfound]

end Include

end Typeahead
