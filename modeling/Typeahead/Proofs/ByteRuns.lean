/-
Runs of bytes between separators.

A run is a stretch of bytes without separators that cannot be made longer on either side.  The runs
of a list of bytes have an order, and listing them in this order is possible in one way only.  Where
two lists of bytes are put together and no run crosses the seam, the runs are those of the first
list and then those of the second.

Main definitions:

* `Typeahead.Text.IsRun` — a stretch is a run;
* `Typeahead.Text.ListsRuns` — all runs of a list of bytes, in order;
* `Typeahead.Text.Parted` — no run crosses the seam of two lists of bytes.

Main results:

* `Typeahead.Text.IsRun.eq_of_mem` — a byte is in one run at most;
* `Typeahead.Text.ListsRuns.unique` — there is one list of runs only;
* `Typeahead.Text.ListsRuns.append` — the runs of two lists of bytes put together.
-/

import Typeahead.Proofs.Steps
import Typeahead.Query.Reading
import Typeahead.Text.Bytes

set_option relaxedAutoImplicit false
set_option autoImplicit false

namespace Typeahead

namespace Span

/-- The stretch `n` bytes further on. -/
def shift (n : Nat) (span : Span) : Span := ⟨n + span.start, n + span.stop⟩

/-- The bytes of a stretch. -/
def slice (span : Span) (bytes : List UInt8) : List UInt8 :=
  (bytes.take span.stop).drop span.start

theorem slice_append_left {span : Span} {before : List UInt8} (h : span.stop ≤ before.length)
    (after : List UInt8) : span.slice (before ++ after) = span.slice before := by
  rw [slice, slice, List.take_append_of_le_length h]

theorem slice_append_right (span : Span) (before after : List UInt8) :
    (span.shift before.length).slice (before ++ after) = span.slice after := by
  rw [slice, slice, shift, List.take_length_add_append, List.drop_length_add_append]

theorem slice_self (bytes : List UInt8) (i : Nat) : slice ⟨i, i⟩ bytes = [] :=
  List.drop_of_length_le (List.length_take_le i bytes)

/-- A stretch that ends one byte later. -/
theorem slice_succ {bytes : List UInt8} {start i : Nat} {byte : UInt8} (hle : start ≤ i)
    (hbyte : bytes[i]? = some byte) :
    slice ⟨start, i + 1⟩ bytes = slice ⟨start, i⟩ bytes ++ [byte] := by
  have hlt := (List.getElem?_eq_some_iff.1 hbyte).1
  show (bytes.take (i + 1)).drop start = (bytes.take i).drop start ++ [byte]
  rw [List.take_add_one, hbyte, Option.toList_some, List.drop_append_of_le_length]
  rwa [List.length_take, min_eq_left hlt.le]

end Span

namespace Text

/-! ### Runs -/

/-- The byte at a place belongs to a word. -/
def InWord (bytes : List UInt8) (i : Nat) : Prop :=
  ∃ byte, bytes[i]? = some byte ∧ isSeparatorByte byte = false

/-- The stretch is a run: it is not empty, no byte of it is a separator, and it ends on both sides
at a separator or at the end of the bytes. -/
structure IsRun (bytes : List UInt8) (span : Span) : Prop where
  lt : span.start < span.stop
  inWord : ∀ i, span.start ≤ i → i < span.stop → InWord bytes i
  left : ∀ i, i + 1 = span.start → ¬ InWord bytes i
  right : ¬ InWord bytes span.stop

/-- The list has all runs, in their order. -/
structure ListsRuns (bytes : List UInt8) (runs : List Span) : Prop where
  pairwise : runs.Pairwise fun first second => first.stop ≤ second.start
  mem_iff : ∀ span, span ∈ runs ↔ IsRun bytes span

variable {bytes before after : List UInt8} {span span' : Span} {runs runs' : List Span}

theorem InWord.lt {i : Nat} (h : InWord bytes i) : i < bytes.length := by
  obtain ⟨byte, hbyte, -⟩ := h
  exact (List.getElem?_eq_some_iff.1 hbyte).1

theorem IsRun.stop_le (h : IsRun bytes span) : span.stop ≤ bytes.length := by
  have hlt := h.lt
  have hlast := (h.inWord (span.stop - 1) (by omega) (by omega)).lt
  omega

theorem IsRun.start_le (h : IsRun bytes span) (h' : IsRun bytes span') {i : Nat}
    (hstop : i < span.stop) (hstart' : span'.start ≤ i) :
    span'.start ≤ span.start := by
  by_contra hlt
  -- the byte before the second run would be in the first
  exact h'.left (span'.start - 1) (by omega) (h.inWord _ (by omega) (by omega))

theorem IsRun.stop_le_stop (h : IsRun bytes span) (h' : IsRun bytes span') {i : Nat}
    (hstop : i < span.stop) (hstart' : span'.start ≤ i) : span'.stop ≤ span.stop := by
  by_contra hlt
  exact h.right (h'.inWord _ (by omega) (by omega))

/-- A byte is in one run at most. -/
theorem IsRun.eq_of_mem (h : IsRun bytes span) (h' : IsRun bytes span') {i : Nat}
    (hstart : span.start ≤ i) (hstop : i < span.stop) (hstart' : span'.start ≤ i)
    (hstop' : i < span'.stop) : span = span' := by
  obtain ⟨start, stop⟩ := span
  obtain ⟨start', stop'⟩ := span'
  rw [Span.mk.injEq]
  exact ⟨le_antisymm (h'.start_le h hstop' hstart) (h.start_le h' hstop hstart'),
    le_antisymm (h'.stop_le_stop h hstop' hstart) (h.stop_le_stop h' hstop hstart')⟩

/-- The runs can be listed in one way only. -/
theorem ListsRuns.unique (h : ListsRuns bytes runs) (h' : ListsRuns bytes runs') :
    runs = runs' := by
  have hnodup : ∀ {runs : List Span}, ListsRuns bytes runs → runs.Nodup := by
    intro runs hruns
    refine hruns.pairwise.imp_of_mem ?_
    rintro span _ hspan - hle rfl
    exact absurd ((hruns.mem_iff span).1 hspan).lt (not_lt.2 hle)
  have hperm : runs.Perm runs' := (List.perm_ext_iff_of_nodup (hnodup h) (hnodup h')).2 fun span =>
    (h.mem_iff span).trans (h'.mem_iff span).symm
  refine hperm.eq_of_pairwise ?_ h.pairwise h'.pairwise
  intro span span' hspan hspan' hle hle'
  have hlt := ((h.mem_iff span).1 hspan).lt
  have hlt' := ((h'.mem_iff span').1 hspan').lt
  omega

/-! ### Putting bytes together -/

/-- No run crosses the seam: the last byte before it or the first byte behind it is a separator, or
there is none. -/
def Parted (before after : List UInt8) : Prop :=
  InWord before (before.length - 1) → ¬ InWord after 0

theorem inWord_append_of_lt {i : Nat} (h : i < before.length) (after : List UInt8) :
    InWord (before ++ after) i ↔ InWord before i := by
  rw [InWord, InWord, List.getElem?_append_left h]

theorem inWord_append_add (before after : List UInt8) (i : Nat) :
    InWord (before ++ after) (before.length + i) ↔ InWord after i := by
  rw [InWord, InWord, List.getElem?_append_right (Nat.le_add_right ..), Nat.add_sub_cancel_left]

/-- A run of the first list stays one. -/
theorem IsRun.append_left (h : IsRun before span) (hparted : Parted before after) :
    IsRun (before ++ after) span where
  lt := h.lt
  inWord i hstart hstop := (inWord_append_of_lt (h.inWord i hstart hstop).lt after).2
    (h.inWord i hstart hstop)
  left i hi := by
    have hlt := h.lt
    have hle := h.stop_le
    rw [inWord_append_of_lt (by omega)]
    exact h.left i hi
  right := by
    rcases h.stop_le.lt_or_eq with hlt | heq
    · rw [inWord_append_of_lt hlt]
      exact h.right
    · -- the run reaches the seam
      have hlt := h.lt
      have hlast := hparted (h.inWord (before.length - 1) (by omega) (by omega))
      rwa [heq, ← Nat.add_zero before.length, inWord_append_add]

/-- A run of the second list stays one, further on. -/
theorem IsRun.append_right (h : IsRun after span) (hparted : Parted before after) :
    IsRun (before ++ after) (span.shift before.length) where
  lt := Nat.add_lt_add_left h.lt _
  inWord i hstart hstop := by
    obtain ⟨j, rfl⟩ := Nat.exists_eq_add_of_le ((Nat.le_add_right ..).trans hstart)
    rw [inWord_append_add]
    exact h.inWord j (Nat.le_of_add_le_add_left hstart) (Nat.lt_of_add_lt_add_left hstop)
  left i hi := by
    have hi : i + 1 = before.length + span.start := hi
    rcases Nat.eq_zero_or_pos span.start with hzero | hpos
    · -- the run starts at the seam
      have hlt := h.lt
      intro hin
      obtain rfl : i = before.length - 1 := by omega
      rw [inWord_append_of_lt (by omega)] at hin
      exact hparted hin (h.inWord 0 (by omega) (by omega))
    · obtain ⟨j, rfl⟩ := Nat.exists_eq_add_of_le (show before.length ≤ i by omega)
      rw [inWord_append_add]
      exact h.left j (by omega)
  right := by
    rw [Span.shift, inWord_append_add]
    exact h.right

/-- Every run is in one of the two lists. -/
theorem IsRun.of_append (h : IsRun (before ++ after) span) (hparted : Parted before after) :
    IsRun before span ∨ ∃ inner, IsRun after inner ∧ inner.shift before.length = span := by
  have hlt := h.lt
  by_cases hstop : span.stop ≤ before.length
  · refine .inl ⟨hlt, ?_, ?_, ?_⟩
    · intro i hi hi'
      exact (inWord_append_of_lt (lt_of_lt_of_le hi' hstop) after).1 (h.inWord i hi hi')
    · intro i hi hin
      exact h.left i hi ((inWord_append_of_lt hin.lt after).2 hin)
    · intro hin
      exact h.right ((inWord_append_of_lt hin.lt after).2 hin)
  by_cases hstart : before.length ≤ span.start
  · obtain ⟨start, hstart⟩ := Nat.exists_eq_add_of_le hstart
    obtain ⟨stop, hstop⟩ := Nat.exists_eq_add_of_le (le_of_not_ge hstop)
    refine .inr ⟨⟨start, stop⟩, ⟨?_, ?_, ?_, ?_⟩, by rw [Span.shift, ← hstart, ← hstop]⟩
    · show start < stop
      omega
    · intro i (hi : start ≤ i) (hi' : i < stop)
      exact (inWord_append_add before after i).1 (h.inWord _ (by omega) (by omega))
    · intro i (hi : i + 1 = start) hin
      exact h.left (before.length + i) (by omega) ((inWord_append_add before after i).2 hin)
    · intro hin
      exact h.right (hstop ▸ (inWord_append_add before after stop).2 hin)
  · -- a run across the seam would have a byte on both sides of it
    have hbefore := h.inWord (before.length - 1) (by omega) (by omega)
    have hafter := h.inWord (before.length + 0) (by omega) (by omega)
    rw [inWord_append_of_lt (by omega)] at hbefore
    rw [inWord_append_add] at hafter
    exact absurd hafter (hparted hbefore)

/-- The runs of bytes that are put together without a run across the seam. -/
theorem ListsRuns.append (h : ListsRuns before runs) (h' : ListsRuns after runs')
    (hparted : Parted before after) :
    ListsRuns (before ++ after) (runs ++ runs'.map (Span.shift before.length)) where
  pairwise := by
    refine List.pairwise_append.2 ⟨h.pairwise, ?_, ?_⟩
    · refine List.pairwise_map.2 (h'.pairwise.imp ?_)
      intro first second hle
      exact Nat.add_le_add_left hle _
    · intro first hfirst second hsecond
      obtain ⟨inner, -, rfl⟩ := List.mem_map.1 hsecond
      have hle := ((h.mem_iff first).1 hfirst).stop_le
      exact hle.trans (Nat.le_add_right ..)
  mem_iff span := by
    simp only [List.mem_append, List.mem_map, h.mem_iff, h'.mem_iff]
    constructor
    · rintro (hrun | ⟨inner, hrun, rfl⟩)
      · exact hrun.append_left hparted
      · exact hrun.append_right hparted
    · exact fun hrun => hrun.of_append hparted

/-- Separators make no run. -/
theorem listsRuns_separators (h : ∀ byte ∈ bytes, isSeparatorByte byte = true) :
    ListsRuns bytes [] where
  pairwise := .nil
  mem_iff span := by
    refine ⟨nofun, fun hrun => ?_⟩
    obtain ⟨byte, hbyte, hword⟩ := hrun.inWord span.start le_rfl hrun.lt
    rw [h byte (List.mem_of_getElem? hbyte)] at hword
    cases hword

/-- Bytes without separators are one run. -/
theorem isRun_unbroken (hne : bytes ≠ []) (h : ∀ byte ∈ bytes, isSeparatorByte byte = false) :
    IsRun bytes ⟨0, bytes.length⟩ where
  lt := List.length_pos_iff.2 hne
  inWord i _ hi := ⟨bytes[i], List.getElem?_eq_getElem hi, h _ (List.getElem_mem hi)⟩
  left _ hi := nomatch hi
  right hin := lt_irrefl _ hin.lt

theorem listsRuns_unbroken (hne : bytes ≠ []) (h : ∀ byte ∈ bytes, isSeparatorByte byte = false) :
    ListsRuns bytes [⟨0, bytes.length⟩] where
  pairwise := List.pairwise_singleton _ _
  mem_iff span := by
    rw [List.mem_singleton]
    constructor
    · rintro rfl
      exact isRun_unbroken hne h
    · intro hrun
      have hlt := hrun.lt
      have hle := hrun.stop_le
      exact hrun.eq_of_mem (isRun_unbroken hne h) le_rfl hlt (Nat.zero_le _)
        (lt_of_lt_of_le hlt hle)

end Text

end Typeahead
