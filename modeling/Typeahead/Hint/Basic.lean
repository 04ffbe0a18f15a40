/-
Hints: the word lists that show what a command may look like.

The shapes of two neighbouring parts of a command are joined by putting every shape of the left
part before every shape of the right part.  When that gives more shapes than a cap allows, the
right shapes are first merged word by word: a place where they all show the same word keeps it,
any other place shows `<...>`.  The number of combinations is a machine word and stays at the
greatest one, so a cap as large as that merges nothing.

Main definitions:

* `Typeahead.Hint` — one shape, as a list of words;
* `Typeahead.Hint.combinations` — the number of combinations, as a machine word counts them;
* `Typeahead.Hint.join` — the shapes of two neighbouring parts, merged beyond a cap;
* `Typeahead.Hint.merged` — the merged word at each place;
* `Typeahead.Hint.concreteCount` — how many words come before the first block of further commands.
-/

import Typeahead.Ranking

set_option relaxedAutoImplicit false
set_option autoImplicit false

namespace Typeahead

/-- One shape of a command: the words it shows, placeholders included. -/
abbrev Hint := List String

/-- The word that stands for a block of further commands. -/
def blockText : String := "..."

/-- The greatest number that a machine word holds. -/
def greatestWord : Nat := Nat.pow 2 64 - 1

theorem le_foldl_max {xs : List Nat} (start : Nat) :
    start ≤ xs.foldl max start ∧ ∀ x ∈ xs, x ≤ xs.foldl max start := by
  induction xs generalizing start with
  | nil => simp
  | cons x xs ih =>
      obtain ⟨hstart, hrest⟩ := ih (max start x)
      rw [List.foldl_cons]
      refine ⟨Nat.le_trans (Nat.le_max_left ..) hstart, ?_⟩
      intro y hy
      rcases List.mem_cons.1 hy with rfl | hy
      · exact Nat.le_trans (Nat.le_max_right ..) hstart
      · exact hrest y hy

namespace Hint

/-- The word that stands for words that differ. -/
def variedText : String := "<...>"

/-- The length of the longest of the shapes. -/
def longest (hints : List Hint) : Nat := (hints.map List.length).foldl max 0

theorem length_le_longest {hints : List Hint} {hint : Hint} (h : hint ∈ hints) :
    hint.length ≤ longest hints :=
  (le_foldl_max 0).2 _ (List.mem_map_of_mem h)

/-- The word at place `j` if all shapes that reach it show the same one, and `<...>` otherwise. -/
def mergedWord (hints : List Hint) (j : Nat) : String :=
  match hints.filterMap (·[j]?) with
  | [] => variedText
  | first :: rest => if rest.all (· == first) then first else variedText

/-- The shapes merged word by word. -/
def merged (hints : List Hint) : Hint :=
  (List.range (longest hints)).map (mergedWord hints)

/-- Every left shape before the first `n` merged words, for each length `n` that occurs among the
right shapes, shortest first. -/
def joinMerged (lhs rhs : List Hint) : List Hint :=
  let lengths := (List.range (longest rhs)).map (· + 1)
  let occurring := lengths.filter fun n => (rhs.map List.length).contains n
  occurring.flatMap fun n => lhs.map (· ++ (merged rhs).take n)

/-- Every left shape before every right one, in the order of the right ones. -/
def joinAll (lhs rhs : List Hint) : List Hint :=
  rhs.flatMap fun right => lhs.map (· ++ right)

/-- The number of combinations of left and right shapes, or the greatest machine word if there are
more than that. -/
def combinations (lhs rhs : List Hint) : Nat := min (lhs.length * rhs.length) greatestWord

theorem combinations_le_iff {cap : Nat} {lhs rhs : List Hint} :
    combinations lhs rhs ≤ cap ↔ lhs.length * rhs.length ≤ cap ∨ greatestWord ≤ cap := by
  unfold combinations
  omega

theorem lt_combinations_iff {cap : Nat} {lhs rhs : List Hint} :
    cap < combinations lhs rhs ↔ cap < lhs.length * rhs.length ∧ cap < greatestWord :=
  Nat.lt_min

/-- The shapes of two neighbouring parts.  A part without any shape does not count; beyond `cap`
combinations the right shapes are merged. -/
def join (cap : Nat) (lhs rhs : List Hint) : List Hint :=
  if lhs.isEmpty then rhs
  else if rhs.isEmpty then lhs
  else if combinations lhs rhs > cap then joinMerged lhs rhs
  else joinAll lhs rhs

@[simp] theorem join_nil_left (cap : Nat) (rhs : List Hint) : join cap [] rhs = rhs := rfl

@[simp] theorem join_nil_right (cap : Nat) (lhs : List Hint) : join cap lhs [] = lhs := by
  cases lhs <;> rfl

/-- How many words a shape has before its first block. -/
def concreteLength (hint : Hint) : Nat := hint.findIdx (· == blockText)

/-- The greatest number of words that any shape has before its first block. -/
def concreteCount (hints : List Hint) : Nat := (hints.map concreteLength).foldl max 0

/-- The order on shapes: word by word in plain character order. -/
def compare (a b : Hint) : Ordering := Ord.compare (a.map codePoints) (b.map codePoints)

/-- The shapes in order, each one once. -/
def sorted (hints : List Hint) : List Hint := sortedUnique compare hints

end Hint

end Typeahead
