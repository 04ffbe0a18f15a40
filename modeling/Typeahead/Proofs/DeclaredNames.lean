/-
What was declared is found.

In a table that is built by calls, a name declared under an owner and a kind is found there as the
type that was declared last, and the names of the kind are listed in order, each one once.  Look-up
starts with the owner's own symbols, so nothing that the owner inherits comes before its containers,
whatever its bases are; a container has no base at all.

Main definitions:

* `Typeahead.SymbolTable.Sorted` — the names of a symbol table increase strictly;
* `Typeahead.TypeTable.Sorted` — those of all its symbol tables do.

Main results:

* `Typeahead.TypeLog.lookup?_eq_some_iff` — what it means to be declared last;
* `Typeahead.TypeTable.Logged.sorted` — the names are in order in a table that is built by calls;
* `Typeahead.TypeTable.findNested?_declared` — a declared name is found and listed.
-/

import Typeahead.Proofs.NestedNames
import Typeahead.Proofs.Sorting

set_option relaxedAutoImplicit false
set_option autoImplicit false

namespace Typeahead

/-! ### The last declaration -/

/-- A type was declared last if no later call declares the same name there. -/
theorem TypeLog.lookup?_eq_some_iff {log : TypeLog} {owner id : TypeId} {kind name : String} :
    log.lookup? owner kind name = some id ↔
      ∃ later base earlier, log = later ++ (.declare owner kind name base, id) :: earlier ∧
        ¬ Declares later owner kind name := by
  induction log with
  | nil => simp [lookup?]
  | cons entry log ih =>
      obtain ⟨call, made⟩ := entry
      cases call with
      | add name' base =>
          rw [lookup?, ih]
          constructor
          · rintro ⟨later, base', earlier, rfl, hlater⟩
            exact ⟨_ :: later, base', earlier, rfl, by rwa [declares_add]⟩
          · rintro ⟨later, base', earlier, heq, hlater⟩
            obtain ⟨hentry, -⟩ | ⟨later, rfl, rfl⟩ := List.cons_eq_append_iff.1 heq
            · cases later <;> simp_all
            · exact ⟨later, base', earlier, rfl, by rwa [declares_add] at hlater⟩
      | declare owner' kind' name' base =>
          rw [lookup?]
          split
          · next heq =>
              obtain ⟨rfl, rfl, rfl⟩ := heq
              constructor
              · rintro ⟨⟩
                exact ⟨[], base, log, rfl, by simp [Declares]⟩
              · rintro ⟨later, base', earlier, heq, hlater⟩
                obtain ⟨-, hentry⟩ | ⟨later, rfl, -⟩ := List.cons_eq_append_iff.1 heq
                · obtain ⟨⟨⟩, -⟩ := List.cons_eq_cons.1 hentry
                  rfl
                · exact absurd (declares_declare.2 (.inl ⟨rfl, rfl, rfl⟩)) hlater
          · next hne =>
              rw [ih]
              constructor
              · rintro ⟨later, base', earlier, rfl, hlater⟩
                refine ⟨_ :: later, base', earlier, rfl, ?_⟩
                rwa [declares_declare, or_iff_right hne]
              · rintro ⟨later, base', earlier, heq, hlater⟩
                obtain ⟨-, hentry⟩ | ⟨later, rfl, rfl⟩ := List.cons_eq_append_iff.1 heq
                · obtain ⟨⟨⟩, -⟩ := List.cons_eq_cons.1 hentry
                  exact absurd ⟨rfl, rfl, rfl⟩ hne
                · refine ⟨later, base', earlier, rfl, ?_⟩
                  rwa [declares_declare, or_iff_right hne] at hlater

/-! ### Names in order -/

namespace SymbolTable

variable {symbols : SymbolTable} {name other : String} {symbol : TypeId}

/-- The names increase strictly. -/
def Sorted (symbols : SymbolTable) : Prop :=
  symbols.names.Pairwise fun a b => compare (codePoints a) (codePoints b) = .lt

theorem mem_names_insert :
    other ∈ (symbols.insert name symbol).names ↔ name = other ∨ other ∈ symbols.names := by
  rw [mem_names_iff, find?_insert, mem_names_iff]
  split
  · next heq => simp [heq]
  · next hne => rw [or_iff_right hne]

theorem sorted_cons {entry : String × TypeId} {entries : List (String × TypeId)} :
    Sorted ⟨entry :: entries⟩ ↔
      (∀ other ∈ names ⟨entries⟩, compare (codePoints entry.1) (codePoints other) = .lt) ∧
        Sorted ⟨entries⟩ := List.pairwise_cons

theorem Sorted.insert (h : symbols.Sorted) (name : String) (symbol : TypeId) :
    (symbols.insert name symbol).Sorted := by
  obtain ⟨entries⟩ := symbols
  induction entries with
  | nil => exact List.pairwise_singleton _ _
  | cons entry rest ih =>
      obtain ⟨hentry, hrest⟩ := sorted_cons.1 h
      rw [SymbolTable.insert, insertEntry]
      split
      · next hlt =>
          refine sorted_cons.2 ⟨?_, h⟩
          intro other hother
          obtain rfl | hother := List.mem_cons.1 hother
          · exact hlt
          · exact Std.TransCmp.lt_trans hlt (hentry other hother)
      · next heq =>
          obtain rfl := codePoints_injective (Std.LawfulEqOrd.eq_of_compare heq)
          exact sorted_cons.2 ⟨hentry, hrest⟩
      · next hgt =>
          refine sorted_cons.2 ⟨?_, ih hrest⟩
          intro other hother
          obtain rfl | hother := mem_names_insert.1 hother
          · exact Std.OrientedCmp.lt_of_gt hgt
          · exact hentry other hother

end SymbolTable

namespace TypeTable

variable {table : TypeTable} {log : TypeLog} {owner box id : TypeId} {kind name : String}

/-- The names of every type increase strictly. -/
def Sorted (table : TypeTable) : Prop :=
  ∀ id info, table.get? id = some info → info.symbols.Sorted

theorem sorted_new : Sorted {} := by
  intro id info hinfo
  have hmem : info ∈ ({} : TypeTable).types := Array.mem_of_getElem? hinfo
  simp only [List.mem_toArray, List.mem_cons, List.not_mem_nil, or_false] at hmem
  obtain rfl | rfl := hmem
  all_goals exact .nil

theorem Sorted.add (h : table.Sorted) (name : String) (base : Option TypeId) :
    (table.add name base).Sorted := by
  intro id info hinfo
  rw [get?_add] at hinfo
  split at hinfo
  · cases hinfo
    exact .nil
  · exact h id info hinfo

theorem Sorted.addSymbol (h : table.Sorted) (owner : TypeId) (key : String) (symbol : TypeId) :
    (table.addSymbol owner key symbol).Sorted := by
  intro id info hinfo
  rw [get?_addSymbol] at hinfo
  split at hinfo
  · obtain ⟨old, hold, rfl⟩ := Option.map_eq_some_iff.1 hinfo
    exact (h id old hold).insert key symbol
  · exact h id info hinfo

theorem Sorted.container (h : table.Sorted) (owner : TypeId) (kind : String) :
    (table.container owner kind).1.Sorted := by
  obtain ⟨-, htable⟩ | ⟨-, -, htable⟩ := table.container_cases owner kind
  · rwa [htable]
  · rw [htable]
    exact (h.add kind none).addSymbol owner kind _

theorem Sorted.declare (h : table.Sorted) (owner : TypeId) (kind name : String)
    (base : Option TypeId) : (table.declare owner kind name base).1.Sorted :=
  ((h.container owner kind).add name base).addSymbol _ name _

/-- The names are in order in every table that is built by calls. -/
theorem Logged.sorted (h : Logged log table) : table.Sorted := by
  induction h with
  | new => exact sorted_new
  | add name base _ ih => exact ih.add name base
  | declare kind name base _ _ ih => exact ih.declare _ kind name base

/-- The names of a kind increase strictly, byte by byte. -/
theorem Sorted.symbolNames (h : table.Sorted) (owner : TypeId) (kind : String) :
    (table.symbolNames owner kind).Pairwise fun a b => utf8Bytes a < utf8Bytes b := by
  rw [TypeTable.symbolNames]
  split
  · next box hbox =>
      obtain ⟨id, -, hbox⟩ := Option.bind_eq_some_iff.1 hbox
      exact (h id box hbox).imp utf8Bytes_lt
  · exact .nil

/-! ### Look-up from the owner -/

/-- The ancestry of a type starts with the type, whatever its base is. -/
theorem exists_ancestry_eq_cons (hhas : table.Has id) :
    ∃ bases, table.ancestry id = id :: bases := by
  obtain ⟨info, hinfo⟩ := exists_get? hhas
  obtain ⟨fuel, hfuel⟩ := Nat.exists_eq_succ_of_ne_zero (Nat.ne_of_gt (Nat.zero_lt_of_lt hhas))
  rw [ancestry, hfuel, ancestryFrom, hinfo]
  exact ⟨_, rfl⟩

/-- What a type declares itself hides what it inherits. -/
theorem findSymbol?_of_ownSymbol? (hhas : table.Has id)
    (hbox : table.ownSymbol? id kind = some box) : table.findSymbol? id kind = some box := by
  obtain ⟨bases, hancestry⟩ := exists_ancestry_eq_cons hhas
  rw [findSymbol?, hancestry, List.findSome?_cons, hbox]

/-- Under a kind that the owner declares, look-up finds what was declared last and nothing else. -/
theorem findNested?_eq_lookup? (h : Logged log table) (hkind : log.DeclaresKind owner kind) :
    table.findNested? owner [kind, name] = log.lookup? owner kind name := by
  have howner : owner ∈ log.owners := hkind.elim fun _ => h.separates.owns
  obtain ⟨box, hbox⟩ := Option.isSome_iff_exists.1 ((h.separates.kinds howner).2 hkind)
  have hcontainer : IsContainer log table box := h.separates.container howner hbox
  calc table.findNested? owner [kind, name]
      = (table.findSymbol? owner kind).bind (table.findSymbol? · name) := findNested?_pair
    _ = table.findSymbol? box name := by
        rw [findSymbol?_of_ownSymbol? (h.separates.has howner) hbox, Option.bind_some]
    _ = (table.ownSymbol? owner kind).bind (table.ownSymbol? · name) := by
        rw [findSymbol?_of_isContainer hcontainer, hbox, Option.bind_some]
    _ = log.lookup? owner kind name := h.separates.names howner

/-- A declared name is found as the type that was declared last, and the names of the kind are
listed in order, each one once. -/
theorem findNested?_declared (h : Logged log table) (hdeclares : log.Declares owner kind name) :
    (∃ later base id earlier, log = later ++ (.declare owner kind name base, id) :: earlier ∧
        ¬ TypeLog.Declares later owner kind name ∧
        table.findNested? owner [kind, name] = some id) ∧
      (table.symbolNames owner kind).Pairwise (fun a b => utf8Bytes a < utf8Bytes b) ∧
      ∀ other, other ∈ table.symbolNames owner kind ↔ log.Declares owner kind other := by
  refine ⟨?_, h.sorted.symbolNames owner kind, fun other => ?_⟩
  · obtain ⟨id, hlookup⟩ := Option.isSome_iff_exists.1 (TypeLog.isSome_lookup?_iff.2 hdeclares)
    obtain ⟨later, base, earlier, hlog, hlater⟩ := TypeLog.lookup?_eq_some_iff.1 hlookup
    refine ⟨later, base, id, earlier, hlog, hlater, ?_⟩
    rw [findNested?_eq_lookup? h ⟨name, hdeclares⟩, hlookup]
  · exact mem_symbolNames_iff_declares h (h.separates.owns hdeclares)

/-- A fighter that is based on itself, with two sensors, one of which is declared anew after a type
whose base is not there. -/
def sensorTypes : TypeTable :=
  let fighter := ({} : TypeTable).declare basicRoot "platformType" "fighter" (some ⟨3⟩)
  let tail := fighter.1.declare fighter.2 "sensors" "TAIL" none
  let nose := tail.1.declare fighter.2 "sensors" "NOSE" none
  let mover := nose.1.add "WSF_AIR_MOVER" (some ⟨99⟩)
  (mover.declare fighter.2 "sensors" "TAIL" (some fighter.2)).1

/-- The sensor that was declared anew is the one that is found. -/
theorem findNested?_declared_sensorTypes :
    ∃ log, Logged log sensorTypes ∧ log.Declares ⟨3⟩ "sensors" "TAIL" ∧
      sensorTypes.findNested? ⟨3⟩ ["sensors", "TAIL"] = some ⟨8⟩ ∧
      sensorTypes.symbolNames ⟨3⟩ "sensors" = ["NOSE", "TAIL"] ∧
      ["NOSE", "TAIL"].Pairwise (fun a b => utf8Bytes a < utf8Bytes b) ∧
      ∀ name, name ∈ ["NOSE", "TAIL"] ↔ log.Declares ⟨3⟩ "sensors" name := by
  have hlogged : ∃ log, Logged log sensorTypes ∧ log.Declares ⟨3⟩ "sensors" "TAIL" := by
    refine ⟨_, .declare "sensors" "TAIL" _ (.add "WSF_AIR_MOVER" _ (.declare "sensors" "NOSE" _
      (.declare "sensors" "TAIL" _ (.declare "platformType" "fighter" _ .new ?_) ?_) ?_)) ?_,
      _, _, List.mem_cons_self⟩
    all_goals decide +kernel
  obtain ⟨log, hlogged, hdeclares⟩ := hlogged
  have hnames : sensorTypes.symbolNames ⟨3⟩ "sensors" = ["NOSE", "TAIL"] := by decide +kernel
  obtain ⟨-, hsorted, hmem⟩ := findNested?_declared hlogged hdeclares
  rw [hnames] at hsorted hmem
  exact ⟨log, hlogged, hdeclares, by decide +kernel, hnames, hsorted, hmem⟩

end TypeTable

end Typeahead
