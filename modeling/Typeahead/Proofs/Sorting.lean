/-
Sorted lists without repetitions.

Sorting by a comparison and dropping an entry that repeats the one before it changes nothing about
which entries there are.  If the comparison is a linear order, the result increases strictly.

Main results:

* `Typeahead.mem_sortedUnique` — the entries are those of the list;
* `Typeahead.pairwise_sortedUnique` — the result increases strictly;
* `Typeahead.sortedUnique_congr` — the result depends on which entries there are only;
* `Typeahead.utf8Bytes_lt` — texts are ordered by their bytes as they are by their characters;
* `Typeahead.Hint.mem_sorted`, `Typeahead.Hint.pairwise_sorted` — sorted hints are the given ones,
  and increase strictly byte by byte.
-/

import Mathlib.Data.List.Basic
import Mathlib.Tactic.SplitIfs
import Typeahead.Hint.Basic
import Typeahead.Text.Bytes

set_option relaxedAutoImplicit false
set_option autoImplicit false

namespace Typeahead

section Repetitions

variable {α : Type}

/-! ### Dropping repetitions -/

theorem eraseRepsBy_loop_eq (r : α → α → Bool) (a : α) (xs acc : List α) :
    List.eraseRepsBy.loop r a xs acc = acc.reverse ++ List.eraseRepsBy.loop r a xs [] := by
  induction xs generalizing a acc with
  | nil => simp [List.eraseRepsBy.loop]
  | cons x xs ih =>
      rw [List.eraseRepsBy.loop, List.eraseRepsBy.loop]
      cases r a x with
      | true => exact ih a acc
      | false =>
          simp only
          rw [ih x (a :: acc), ih x [a]]
          simp

variable [BEq α] [LawfulBEq α]

/-- An entry stays unless the next one is the same. -/
theorem eraseReps_cons_cons (a b : α) (xs : List α) :
    (a :: b :: xs).eraseReps =
      if a == b then (b :: xs).eraseReps else a :: (b :: xs).eraseReps := by
  simp only [List.eraseReps, List.eraseRepsBy, List.eraseRepsBy.loop]
  cases hab : a == b with
  | true => rw [eq_of_beq hab]; rfl
  | false => exact eraseRepsBy_loop_eq _ b xs [a]

theorem mem_eraseReps {x : α} {xs : List α} : x ∈ xs.eraseReps ↔ x ∈ xs := by
  induction xs with
  | nil => rfl
  | cons a xs ih =>
      cases xs with
      | nil => rfl
      | cons b xs =>
          rw [eraseReps_cons_cons]
          split
          · next hab =>
              rw [ih, eq_of_beq hab]
              simp
          · rw [List.mem_cons, ih, List.mem_cons (b := a)]

/-! ### Sorting -/

variable {cmp : α → α → Ordering}

/-- Without repetitions, a sorted list increases strictly. -/
theorem pairwise_eraseReps [Std.TransCmp cmp] [Std.LawfulEqCmp cmp] {xs : List α}
    (h : xs.Pairwise fun a b => (cmp a b).isLE = true) :
    xs.eraseReps.Pairwise fun a b => cmp a b = .lt := by
  induction xs with
  | nil => exact .nil
  | cons a xs ih =>
      cases xs with
      | nil => exact List.pairwise_singleton _ _
      | cons b xs =>
          rw [eraseReps_cons_cons]
          obtain ⟨hle, hrest⟩ := List.pairwise_cons.1 h
          split
          · exact ih hrest
          · next hab =>
              refine List.pairwise_cons.2 ⟨?_, ih hrest⟩
              intro y hy
              have hlt : cmp a b = .lt := by
                have hb := hle b (List.mem_cons_self ..)
                cases hcmp : cmp a b with
                | lt => rfl
                | eq => exact absurd (Std.LawfulEqCmp.eq_of_compare hcmp) (by simpa using hab)
                | gt => simp [hcmp] at hb
              -- every later entry is at least `b`, so the step from `a` to `b` carries over
              rcases List.mem_cons.1 (mem_eraseReps.1 hy) with rfl | hy
              · exact hlt
              · exact Std.TransCmp.lt_of_lt_of_isLE hlt ((List.pairwise_cons.1 hrest).1 y hy)

theorem mem_sortedUnique {x : α} {xs : List α} : x ∈ sortedUnique cmp xs ↔ x ∈ xs := by
  rw [sortedUnique, mem_eraseReps, List.mem_mergeSort]

theorem pairwise_sortedUnique [Std.TransCmp cmp] [Std.LawfulEqCmp cmp] (xs : List α) :
    (sortedUnique cmp xs).Pairwise fun a b => cmp a b = .lt := by
  refine pairwise_eraseReps (List.pairwise_mergeSort ?_ ?_ xs)
  · intro a b c hab hbc
    exact Std.TransCmp.isLE_trans hab hbc
  · intro a b
    have hswap : cmp b a = (cmp a b).swap := Std.OrientedCmp.eq_swap
    rw [hswap]
    cases cmp a b <;> rfl

/-- The result depends on which entries there are only. -/
theorem sortedUnique_congr [Std.TransCmp cmp] [Std.LawfulEqCmp cmp] {xs ys : List α}
    (h : ∀ x, x ∈ xs ↔ x ∈ ys) : sortedUnique cmp xs = sortedUnique cmp ys := by
  have hnodup : ∀ zs : List α, (sortedUnique cmp zs).Nodup := by
    intro zs
    refine (pairwise_sortedUnique zs).imp ?_
    rintro a b hlt rfl
    have hself : cmp a a = .eq := Std.ReflCmp.compare_self
    rw [hself] at hlt
    cases hlt
  have hperm : (sortedUnique cmp xs).Perm (sortedUnique cmp ys) := by
    refine (List.perm_ext_iff_of_nodup (hnodup xs) (hnodup ys)).2 ?_
    intro x
    rw [mem_sortedUnique, mem_sortedUnique, h x]
  refine hperm.eq_of_pairwise ?_ (pairwise_sortedUnique xs) (pairwise_sortedUnique ys)
  intro a b _ _ hab hba
  have hswap : cmp b a = (cmp a b).swap := Std.OrientedCmp.eq_swap
  rw [hswap, hab] at hba
  cases hba

end Repetitions

/-! ### Character order and byte order -/

theorem utf8Bytes_eq (text : String) :
    utf8Bytes text = text.toList.flatMap String.utf8EncodeChar := by
  rw [utf8Bytes, ← String.utf8Encode_toList, List.utf8Encode, List.data_toByteArray]

/-- The encodings of two characters differ at some byte that both have, and there they are ordered
as the characters are. -/
theorem utf8EncodeChar_lt {c d : Char} (h : c.toNat < d.toNat) (xs ys : List UInt8) :
    String.utf8EncodeChar c ++ xs < String.utf8EncodeChar d ++ ys := by
  have hmax : d.toNat < 0x110000 := by
    have hvalid := d.valid
    unfold UInt32.isValidChar Nat.isValidChar at hvalid
    unfold Char.toNat
    omega
  have hc : c.val.toNat = c.toNat := rfl
  have hd : d.val.toNat = d.toNat := rfl
  -- the bytes after the first hold digits to the base 64
  have hdigits : ∀ n, n / 4096 = n / 64 / 64 ∧ n / 262144 = n / 64 / 64 / 64 := by omega
  simp only [String.utf8EncodeChar, hc, hd, hdigits]
  generalize c.toNat = m at *
  generalize d.toNat = n at *
  split_ifs
  all_goals first
    | omega
    | simp only [List.cons_append, List.nil_append, List.cons_lt_cons_iff,
        UInt8.lt_iff_toNat_lt, ← UInt8.toNat_inj, UInt8.toNat_ofNat']
      omega

theorem flatMap_utf8EncodeChar_lt {cs ds : List Char}
    (h : compare (cs.map Char.toNat) (ds.map Char.toNat) = .lt) :
    cs.flatMap String.utf8EncodeChar < ds.flatMap String.utf8EncodeChar := by
  induction cs generalizing ds with
  | nil =>
      cases ds with
      | nil => cases h
      | cons d ds =>
          have hne : String.utf8EncodeChar d ≠ [] := by
            rw [← List.length_pos_iff, String.length_utf8EncodeChar]
            exact d.utf8Size_pos
          obtain ⟨byte, bytes, hbytes⟩ := List.exists_cons_of_ne_nil hne
          rw [List.flatMap_nil, List.flatMap_cons, hbytes, List.cons_append]
          exact List.nil_lt_cons ..
  | cons c cs ih =>
      cases ds with
      | nil => cases h
      | cons d ds =>
          rw [List.map_cons, List.map_cons, List.compare_cons_cons, Ordering.then_eq_lt] at h
          rw [List.flatMap_cons, List.flatMap_cons]
          rcases h with hlt | ⟨heq, hrest⟩
          · exact utf8EncodeChar_lt (Nat.compare_eq_lt.1 hlt) _ _
          · obtain rfl : c = d := Char.toNat_inj.1 (Nat.compare_eq_eq.1 heq)
            exact List.append_left_lt (ih hrest)

/-- Texts are ordered by their bytes as they are by their characters. -/
theorem utf8Bytes_lt {a b : String} (h : compare (codePoints a) (codePoints b) = .lt) :
    utf8Bytes a < utf8Bytes b := by
  rw [utf8Bytes_eq, utf8Bytes_eq]
  exact flatMap_utf8EncodeChar_lt h

/-! ### Suggestions and hints -/

namespace Ranking

theorem mem_rank {text : String} {texts : List String} : text ∈ rank texts ↔ text ∈ texts :=
  mem_sortedUnique

instance : Std.TransCmp compare :=
  inferInstanceAs (Std.TransCmp (compareLex (compareOn rankKey) (compareOn codePoints)))

instance : Std.LawfulEqCmp compare where
  compare_self := Std.ReflCmp.compare_self
  eq_of_compare h := codePoints_injective
    (Std.LawfulEqCmp.eq_of_compare (Ordering.then_eq_eq.1 h).2)

/-- The order of suggestions depends on which ones there are only. -/
theorem rank_congr {texts texts' : List String} (h : ∀ text, text ∈ texts ↔ text ∈ texts') :
    rank texts = rank texts' := sortedUnique_congr h

end Ranking

namespace Hint

theorem mem_sorted {hint : Hint} {hints : List Hint} : hint ∈ sorted hints ↔ hint ∈ hints :=
  mem_sortedUnique

/-- The order on hints is that of their words, byte by byte. -/
theorem map_utf8Bytes_lt {a b : Hint} (h : compare a b = .lt) :
    a.map utf8Bytes < b.map utf8Bytes := by
  rw [compare] at h
  induction a generalizing b with
  | nil =>
      cases b with
      | nil => cases h
      | cons text b => exact List.nil_lt_cons ..
  | cons text a ih =>
      cases b with
      | nil => cases h
      | cons other b =>
          rw [List.map_cons, List.map_cons, List.compare_cons_cons, Ordering.then_eq_lt] at h
          rw [List.map_cons, List.map_cons, List.cons_lt_cons_iff]
          rcases h with hlt | ⟨heq, hrest⟩
          · exact .inl (utf8Bytes_lt hlt)
          · obtain rfl : text = other := codePoints_injective (Std.LawfulEqCmp.eq_of_compare heq)
            exact .inr ⟨rfl, ih hrest⟩

instance : Std.TransCmp compare :=
  inferInstanceAs (Std.TransCmp (compareOn fun hint : Hint => hint.map codePoints))

instance : Std.LawfulEqCmp compare where
  compare_self := Std.ReflCmp.compare_self
  eq_of_compare h := List.map_injective_iff.2 (fun _ _ => codePoints_injective)
    (Std.LawfulEqCmp.eq_of_compare h)

/-- Sorted hints increase strictly, byte by byte. -/
theorem pairwise_sorted (hints : List Hint) :
    (sorted hints).Pairwise fun a b => a.map utf8Bytes < b.map utf8Bytes :=
  (pairwise_sortedUnique hints).imp map_utf8Bytes_lt

end Hint

end Typeahead
