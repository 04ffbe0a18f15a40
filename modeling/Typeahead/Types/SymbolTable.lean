/-
Symbol tables: the names that a type declares, each with the type it stands for.

The entries are kept in the plain order of their names, one entry a name.

Main definitions:

* `Typeahead.SymbolTable` — the entries;
* `Typeahead.SymbolTable.find?`, `Typeahead.SymbolTable.insert` — look-up and update;
* `Typeahead.SymbolTable.names` — the names, in order.

Main results:

* `Typeahead.SymbolTable.find?_insert` — what an update does to look-up.
-/

import Typeahead.Ranking

set_option relaxedAutoImplicit false
set_option autoImplicit false

namespace Typeahead

/-- The place of a type in its table. -/
structure TypeId where
  index : Nat
  deriving DecidableEq, Repr

/-- Names and the types they stand for, in the order of the names. -/
structure SymbolTable where
  entries : List (String × TypeId) := []
  deriving DecidableEq, Repr

namespace SymbolTable

/-- Puts an entry at its place, over an entry of the same name. -/
def insertEntry (name : String) (symbol : TypeId) : List (String × TypeId) → List (String × TypeId)
  | [] => [(name, symbol)]
  | entry :: rest =>
      match compare (codePoints name) (codePoints entry.1) with
      | .lt => (name, symbol) :: entry :: rest
      | .eq => (name, symbol) :: rest
      | .gt => entry :: insertEntry name symbol rest

/-- The table in which `name` stands for `symbol`. -/
def insert (table : SymbolTable) (name : String) (symbol : TypeId) : SymbolTable :=
  ⟨insertEntry name symbol table.entries⟩

/-- The type that a name stands for. -/
def find? (table : SymbolTable) (name : String) : Option TypeId :=
  (table.entries.find? fun entry => entry.1 == name).map Prod.snd

/-- The names, in order. -/
def names (table : SymbolTable) : List String := table.entries.map Prod.fst

/-- The types that the names stand for, in the order of the names. -/
def symbols (table : SymbolTable) : List TypeId := table.entries.map Prod.snd

theorem find?_insertEntry (name key : String) (symbol : TypeId) (entries : List (String × TypeId)) :
    (insertEntry name symbol entries).find? (fun entry => entry.1 == key) =
      if name = key then some (name, symbol)
      else entries.find? (fun entry => entry.1 == key) := by
  induction entries with
  | nil => by_cases h : name = key <;> simp [insertEntry, h]
  | cons entry rest ih =>
      rw [insertEntry]
      split
      · by_cases h : name = key <;> simp [h]
      · next heq =>
          have hname : name = entry.1 :=
            codePoints_injective (Std.LawfulEqOrd.eq_of_compare heq)
          by_cases h : name = key
          · simp [h]
          · simp [h, ← hname]
      · next hgt =>
          by_cases h : name = key
          · subst h
            have hne : entry.1 ≠ name := by
              intro he
              rw [he, Std.ReflOrd.compare_self] at hgt
              cases hgt
            simp [ih, hne]
          · simp only [List.find?_cons, ih, if_neg h]

/-- Look-up after an update finds the new type under its name and all else as before. -/
@[simp] theorem find?_insert (table : SymbolTable) (name key : String) (symbol : TypeId) :
    (table.insert name symbol).find? key =
      if name = key then some symbol else table.find? key := by
  rw [find?, insert, find?_insertEntry]
  split <;> rfl

end SymbolTable

end Typeahead
