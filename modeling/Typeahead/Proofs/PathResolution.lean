/-
Where a path leads.

A path is followed name by name.  A name leads into an object of the directory reached so far, and
a link there is replaced by the names of its target; forty links may be met on the way.  The names
that stay in a directory or lead out of it count only where there is a directory.

Main definitions:

* `Typeahead.FileTree.Leads` — following names over a bounded number of links;
* `Typeahead.FileTree.LeadsTo`, `Typeahead.FileTree.LeadsToDirectory` — where a path text leads;
* `Typeahead.FileTree.HasEntry` — an object stands in a directory;
* `Typeahead.FileTree.ProperNames` — no name is empty or has a slash in it.

Main results:

* `Typeahead.FileTree.follow_eq_ok_iff`, `Typeahead.FileTree.locate_eq_ok_iff` — look-up finds where
  a path leads;
* `Typeahead.FileTree.mem_entryNames` — the names listed for a directory are those of its entries.
-/

import Typeahead.Files.Tree

set_option relaxedAutoImplicit false
set_option autoImplicit false

namespace Typeahead

namespace FileTree

variable {tree : FileTree} {links : Nat} {location location' goal : Location}
  {names names' : List String} {path : String}

/-! ### Following names -/

/-- Following names from a location leads to another one, over at most `links` links. -/
inductive Leads (tree : FileTree) : Nat → Location → List String → Location → Prop
  | arrived {links : Nat} {location : Location} : Leads tree links location [] location
  | stay {links : Nat} {location goal : Location} {name : String} {rest : List String} :
      tree.hasDirectory location = true → Path.stays name = true →
      Leads tree links location rest goal → Leads tree links location (name :: rest) goal
  | up {links : Nat} {location goal : Location} {rest : List String} :
      tree.hasDirectory location = true → Leads tree links location.dropLast rest goal →
      Leads tree links location (".." :: rest) goal
  | enter {links : Nat} {location goal : Location} {name : String} {rest : List String}
      {object : FileObject} :
      tree.hasDirectory location = true → Path.stays name = false → name ≠ ".." →
      tree.object? (location ++ [name]) = some object → (∀ target, object ≠ .link target) →
      Leads tree links (location ++ [name]) rest goal →
      Leads tree links location (name :: rest) goal
  | link {links : Nat} {location goal : Location} {name target : String} {rest : List String} :
      tree.hasDirectory location = true → Path.stays name = false → name ≠ ".." →
      tree.object? (location ++ [name]) = some (.link target) →
      Leads tree links (startOf location target) (Path.parts target ++ rest) goal →
      Leads tree (links + 1) location (name :: rest) goal

/-- What is left to follow when the walk ends leads to a location: nothing, or a link and what comes
behind it. -/
inductive Walk.LeadsOn (tree : FileTree) : Nat → Walk → Location → Prop
  | arrived {links : Nat} {location : Location} : LeadsOn tree links (.arrived location) location
  | metLink {links : Nat} {directory goal : Location} {target : String} {rest : List String} :
      tree.Leads links (startOf directory target) (Path.parts target ++ rest) goal →
      LeadsOn tree (links + 1) (.metLink directory target rest) goal

/-- The names lead where the end of the walk leads on to. -/
theorem leads_of_walk {walked : Walk} (h : tree.walk location names = .ok walked)
    (hon : walked.LeadsOn tree links goal) : tree.Leads links location names goal := by
  induction names generalizing location with
  | nil =>
      rw [walk] at h
      cases h
      cases hon
      exact .arrived
  | cons name rest ih =>
      rw [walk] at h
      split at h
      · cases h
      next hdirectory =>
      rw [Bool.not_eq_true, Bool.not_eq_false'] at hdirectory
      split at h
      · next hstays => exact .stay hdirectory hstays (ih h)
      next hstays =>
      rw [Bool.not_eq_true] at hstays
      split at h
      · next hup =>
          obtain rfl := eq_of_beq hup
          exact .up hdirectory (ih h)
      next hup =>
      have hname : name ≠ ".." := by simpa using hup
      split at h
      · cases h
      · next hobject =>
          cases h
          cases hon with
          | metLink hrest => exact .link hdirectory hstays hname hobject hrest
      · next object hlink hobject =>
          refine .enter hdirectory hstays hname hobject ?_ (ih h)
          rintro target rfl
          exact hlink target rfl

theorem follow_congr (h : tree.walk location names = tree.walk location' names') (links : Nat) :
    tree.follow links location names = tree.follow links location' names' := by
  rw [follow, follow, h]

/-- Look-up follows names as far as they lead. -/
theorem follow_eq_ok_iff :
    tree.follow links location names = .ok goal ↔ tree.Leads links location names goal := by
  constructor
  · intro h
    induction links generalizing location names with
    | zero =>
        rw [follow] at h
        split at h
        · cases h
        · next harrived =>
            cases h
            exact leads_of_walk harrived .arrived
        · cases h
    | succ links ih =>
        rw [follow] at h
        split at h
        · cases h
        · next harrived =>
            cases h
            exact leads_of_walk harrived .arrived
        · next hlink => exact leads_of_walk hlink (.metLink (ih h))
  · intro h
    induction h with
    | arrived => rw [follow, walk]
    | stay hdirectory hstays _ ih =>
        rw [← ih]
        refine follow_congr ?_ _
        rw [walk, hdirectory, hstays]
        rfl
    | up hdirectory _ ih =>
        rw [← ih]
        refine follow_congr ?_ _
        rw [walk, hdirectory]
        rfl
    | @enter links location goal name rest object hdirectory hstays hup hobject hlink _ ih =>
        rw [← ih]
        refine follow_congr ?_ _
        rw [walk, hdirectory, hstays, beq_eq_false_iff_ne.2 hup, hobject]
        cases object with
        | directory | file => rfl
        | link target => exact absurd rfl (hlink target)
    | link hdirectory hstays hup hobject _ ih =>
        rw [follow, walk, hdirectory, hstays, beq_eq_false_iff_ne.2 hup, hobject]
        exact ih

/-! ### Path texts -/

/-- A path text leads to a location, links followed. -/
structure LeadsTo (tree : FileTree) (path : String) (location : Location) : Prop where
  no_zero : '\x00' ∉ path.toList
  ne_empty : path ≠ ""
  leads : tree.Leads maxLinks (startOf tree.current path) (Path.parts path) location

/-- A path text leads to a directory, links followed. -/
def LeadsToDirectory (tree : FileTree) (path : String) : Prop :=
  ∃ location, tree.LeadsTo path location ∧ tree.hasDirectory location = true

/-- Look-up finds where a path leads. -/
theorem locate_eq_ok_iff : tree.locate path = .ok location ↔ tree.LeadsTo path location := by
  rw [locate]
  split
  · next hzero =>
      simp only [reduceCtorEq, false_iff]
      exact fun h => h.no_zero (List.contains_iff_mem.1 hzero)
  next hzero =>
  split
  · next hempty =>
      simp only [reduceCtorEq, false_iff]
      exact fun h => h.ne_empty (String.isEmpty_iff.1 hempty)
  next hempty =>
  rw [follow_eq_ok_iff]
  constructor
  · intro h
    exact ⟨fun hmem => hzero (List.contains_iff_mem.2 hmem),
      fun heq => hempty (String.isEmpty_iff.2 heq), h⟩
  · exact LeadsTo.leads

theorem isDirectory_iff : tree.isDirectory path = true ↔ tree.LeadsToDirectory path := by
  rw [isDirectory, LeadsToDirectory]
  simp only [← locate_eq_ok_iff]
  cases tree.locate path <;> simp

/-! ### Entries -/

/-- An object of that name stands in the directory. -/
def HasEntry (tree : FileTree) (location : Location) (name : String) : Prop :=
  ∃ object, (location ++ [name], object) ∈ tree.objects

/-- The names listed for a directory are those of its entries. -/
theorem mem_entryNames {name : String} :
    name ∈ tree.entryNames location ↔ tree.HasEntry location name := by
  simp only [entryNames, List.mem_filterMap, beq_iff_eq, Option.ite_none_right_eq_some, HasEntry]
  constructor
  · rintro ⟨⟨full, object⟩, hmem, rfl, hname⟩
    obtain ⟨above, rfl⟩ := List.getLast?_eq_some_iff.1 hname
    exact ⟨object, by rwa [List.dropLast_concat]⟩
  · rintro ⟨object, hmem⟩
    exact ⟨_, hmem, List.dropLast_concat, List.getLast?_concat⟩

/-- No name is empty or has a slash in it. -/
def ProperNames (tree : FileTree) : Prop :=
  ∀ entry ∈ tree.objects, ∀ name ∈ entry.1, name ≠ "" ∧ '/' ∉ name.toList

theorem ProperNames.of_hasEntry {name : String} (h : tree.ProperNames)
    (hentry : tree.HasEntry location name) : name ≠ "" ∧ '/' ∉ name.toList := by
  obtain ⟨object, hmem⟩ := hentry
  exact h _ hmem name (List.mem_append_right _ List.mem_cons_self)

end FileTree

end Typeahead
