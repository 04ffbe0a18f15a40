/-
Names that a type inherits.

The names of a kind are listed for a type by going through the type and its bases, and all that is
declared on the way is listed.  Look-up goes the same way, but only as far as the first type that
declares anything under the kind, and what that one does not declare is not found.  So the two agree
about a name unless it is hidden: declared by a base, while a nearer type declares other names of
the kind only.

Main definitions:

* `Typeahead.TypeLog.Nearest` — the nearest of some types that declares anything under a kind;
* `Typeahead.TypeLog.Hides` — a name is declared, but not by the nearest type.

Main results:

* `Typeahead.TypeTable.findNested?_eq_some_iff` — look-up finds what the nearest type declares;
* `Typeahead.Language.candidates_agree_iff` — listing and look-up agree about a name exactly if the
  name is not hidden;
* `Typeahead.Language.not_candidates_agree` — a name may be hidden.
-/

import Typeahead.Language
import Typeahead.Proofs.TypeHistory

set_option relaxedAutoImplicit false
set_option autoImplicit false

namespace Typeahead

/-! ### The nearest type -/

namespace TypeLog

variable {log : TypeLog} {kind name : String} {chain : List TypeId} {owner owner' : TypeId}

/-- The nearest of the types that declares anything under the kind. -/
inductive Nearest (log : TypeLog) (kind : String) : List TypeId → TypeId → Prop
  | here {owner : TypeId} {chain : List TypeId} :
      log.DeclaresKind owner kind → Nearest log kind (owner :: chain) owner
  | there {other owner : TypeId} {chain : List TypeId} :
      ¬ log.DeclaresKind other kind → Nearest log kind chain owner →
      Nearest log kind (other :: chain) owner

/-- A type declares the name, but not the nearest type that declares anything under the kind. -/
structure Hides (log : TypeLog) (kind : String) (chain : List TypeId) (name : String) : Prop where
  declares : ∃ owner ∈ chain, log.Declares owner kind name
  nearest : ∃ owner, log.Nearest kind chain owner ∧ ¬ log.Declares owner kind name

theorem Nearest.mem (h : log.Nearest kind chain owner) : owner ∈ chain := by
  induction h with
  | here => exact List.mem_cons_self
  | there _ _ ih => exact List.mem_cons_of_mem _ ih

theorem Nearest.unique (h : log.Nearest kind chain owner) (h' : log.Nearest kind chain owner') :
    owner = owner' := by
  induction h with
  | here hkind =>
      cases h' with
      | here => rfl
      | there hnot => exact absurd hkind hnot
  | there hnot _ ih =>
      cases h' with
      | here hkind => exact absurd hkind hnot
      | there _ h' => exact ih h'

theorem exists_nearest (hmem : owner ∈ chain) (hkind : log.DeclaresKind owner kind) :
    ∃ nearest, log.Nearest kind chain nearest := by
  induction chain with
  | nil => cases hmem
  | cons other chain ih =>
      by_cases hother : log.DeclaresKind other kind
      · exact ⟨other, .here hother⟩
      · obtain rfl | hmem := List.mem_cons.1 hmem
        · exact absurd hkind hother
        · obtain ⟨nearest, h⟩ := ih hmem
          exact ⟨nearest, .there hother h⟩

/-- A name is declared by the nearest type whenever any declares it, exactly if it is not hidden. -/
theorem declares_nearest_iff_not_hides :
    ((∃ owner ∈ chain, log.Declares owner kind name) ↔
        ∃ owner, log.Nearest kind chain owner ∧ log.Declares owner kind name) ↔
      ¬ log.Hides kind chain name := by
  constructor
  · rintro hagree ⟨hdeclares, owner, hnearest, hnot⟩
    obtain ⟨owner', hnearest', hdeclares'⟩ := hagree.1 hdeclares
    obtain rfl := hnearest.unique hnearest'
    exact hnot hdeclares'
  · intro hnot
    constructor
    · rintro ⟨owner, hmem, hdeclares⟩
      obtain ⟨nearest, hnearest⟩ := exists_nearest hmem ⟨name, hdeclares⟩
      refine ⟨nearest, hnearest, Classical.byContradiction fun hnearestNot => ?_⟩
      exact hnot ⟨⟨owner, hmem, hdeclares⟩, nearest, hnearest, hnearestNot⟩
    · rintro ⟨owner, hnearest, hdeclares⟩
      exact ⟨owner, hnearest.mem, hdeclares⟩

end TypeLog

/-! ### Listing and look-up -/

theorem SymbolTable.mem_names_iff {symbols : SymbolTable} {name : String} :
    name ∈ symbols.names ↔ (symbols.find? name).isSome := by
  rw [names, find?, Option.isSome_map, List.find?_isSome, List.mem_map]
  simp only [beq_iff_eq]

namespace TypeTable

variable {table : TypeTable} {log : TypeLog} {scope id : TypeId} {kind name : String}

/-- The names that a type declares itself under a kind are those in its container. -/
theorem mem_symbolNames_iff : name ∈ table.symbolNames id kind ↔
    ((table.ownSymbol? id kind).bind (table.ownSymbol? · name)).isSome := by
  rw [symbolNames]
  cases table.ownSymbol? id kind with
  | none => simp
  | some box =>
      rw [Option.bind_some, Option.bind_some, ownSymbol?]
      cases table.get? box with
      | none => simp
      | some info => exact SymbolTable.mem_names_iff

/-- A type without a base has no ancestors but itself. -/
theorem ancestry_of_no_base (hhas : table.Has id) (hbase : table.base? id = none) :
    table.ancestry id = [id] := by
  obtain ⟨info, hinfo⟩ := exists_get? hhas
  rw [base?, hinfo, Option.bind_some] at hbase
  obtain ⟨fuel, hfuel⟩ := Nat.exists_eq_succ_of_ne_zero (Nat.ne_of_gt (Nat.zero_lt_of_lt hhas))
  rw [ancestry, hfuel, ancestryFrom, hinfo]
  simp only [List.contains_nil, hbase]
  cases fuel <;> rfl

theorem findSymbol?_of_isContainer {box : TypeId} (h : IsContainer log table box) :
    table.findSymbol? box name = table.ownSymbol? box name := by
  rw [findSymbol?, ancestry_of_no_base h.has h.no_base, List.findSome?_singleton]

theorem findNested?_pair : table.findNested? scope [kind, name] =
    ((table.ancestry scope).findSome? (table.ownSymbol? · kind)).bind
      (table.findSymbol? · name) := by
  rw [findNested?, List.isEmpty_cons, if_neg Bool.false_ne_true, List.foldlM_cons, findSymbol?]
  refine congrArg _ (funext fun box => ?_)
  rw [List.foldlM_cons]
  exact bind_pure _

section Chain

variable (h : Logged log table)
include h

/-- Going through some owners, look-up finds what the nearest of them declared last. -/
theorem findSome?_eq_some_iff {chain : List TypeId} (hchain : ∀ owner ∈ chain, owner ∈ log.owners) :
    (chain.findSome? (table.ownSymbol? · kind)).bind (table.findSymbol? · name) = some id ↔
      ∃ owner, log.Nearest kind chain owner ∧ log.lookup? owner kind name = some id := by
  induction chain with
  | nil =>
      rw [List.findSome?_nil, Option.bind_none]
      constructor
      · rintro ⟨⟩
      · rintro ⟨owner, ⟨⟩, -⟩
  | cons owner chain ih =>
      obtain ⟨howner, hchain⟩ := List.forall_mem_cons.1 hchain
      have hkinds : (table.ownSymbol? owner kind).isSome ↔ log.DeclaresKind owner kind :=
        h.separates.kinds howner
      rw [List.findSome?_cons]
      cases hbox : table.ownSymbol? owner kind with
      | some box =>
          rw [hbox, Option.isSome_some, eq_self, true_iff] at hkinds
          have hnames : (table.ownSymbol? owner kind).bind (table.ownSymbol? · name) =
            log.lookup? owner kind name := h.separates.names howner
          rw [hbox, Option.bind_some] at hnames
          have hcontainer := h.separates.container howner hbox
          rw [Option.bind_some, findSymbol?_of_isContainer hcontainer, hnames]
          constructor
          · intro hlookup
            exact ⟨owner, .here hkinds, hlookup⟩
          · rintro ⟨owner', hnearest, hlookup⟩
            rwa [hnearest.unique (.here hkinds)] at hlookup
      | none =>
          rw [hbox, Option.isSome_none, Bool.false_eq_true, false_iff] at hkinds
          rw [ih hchain]
          constructor
          · rintro ⟨owner', hnearest, hlookup⟩
            exact ⟨owner', .there hkinds hnearest, hlookup⟩
          · rintro ⟨owner', hnearest, hlookup⟩
            cases hnearest with
            | here hkind => exact absurd hkind hkinds
            | there _ hnearest => exact ⟨owner', hnearest, hlookup⟩

theorem mem_symbolNames_iff_declares {owner : TypeId} (howner : owner ∈ log.owners) :
    name ∈ table.symbolNames owner kind ↔ log.Declares owner kind name := by
  rw [mem_symbolNames_iff, h.separates.names howner, TypeLog.isSome_lookup?_iff]

variable (hchain : ∀ owner ∈ table.ancestry scope, owner ∈ log.owners)
include hchain

/-- Under a kind, look-up finds what the nearest type declared last. -/
theorem findNested?_eq_some_iff : table.findNested? scope [kind, name] = some id ↔
    ∃ owner, log.Nearest kind (table.ancestry scope) owner ∧
      log.lookup? owner kind name = some id := by
  rw [findNested?_pair, findSome?_eq_some_iff h hchain]

theorem isSome_findNested?_iff : (table.findNested? scope [kind, name]).isSome ↔
    ∃ owner, log.Nearest kind (table.ancestry scope) owner ∧ log.Declares owner kind name := by
  rw [Option.isSome_iff_exists]
  simp only [findNested?_eq_some_iff h hchain, ← TypeLog.isSome_lookup?_iff,
    Option.isSome_iff_exists]
  constructor
  · rintro ⟨id, owner, hnearest, hlookup⟩
    exact ⟨owner, hnearest, id, hlookup⟩
  · rintro ⟨owner, hnearest, id, hlookup⟩
    exact ⟨id, owner, hnearest, hlookup⟩

/-- The names of a kind are listed for each of the types. -/
theorem exists_mem_symbolNames_iff :
    (∃ owner ∈ table.ancestry scope, name ∈ table.symbolNames owner kind) ↔
      ∃ owner ∈ table.ancestry scope, log.Declares owner kind name := by
  refine exists_congr fun owner => and_congr_right fun hmem => ?_
  exact mem_symbolNames_iff_declares h (hchain owner hmem)

end Chain

end TypeTable

namespace Language

variable {language : Language} {log : TypeLog} {scope : TypeId} {kind name : String}

theorem mem_candidates_iff (hkind : kind ≠ platformPartKind) (hdot : kind.startsWith "." = false) :
    name ∈ language.candidates (some scope) (.type [kind] true) ↔
      ∃ owner ∈ language.types.ancestry scope, name ∈ language.types.symbolNames owner kind := by
  have hkinds : language.nestedKinds kind = [kind] := by
    simp only [nestedKinds, hdot, Bool.false_eq_true, if_false, beq_iff_eq, if_neg hkind]
  simp only [candidates, nestedCandidates, hkinds, List.flatMap_singleton, List.mem_flatMap]

/-- Listing and look-up agree about a name exactly if it is not hidden: listing goes by all types
from the current one upwards, and look-up by the nearest that declares anything under the kind. -/
theorem candidates_agree_iff (h : TypeTable.Logged log language.types)
    (hchain : ∀ owner ∈ language.types.ancestry scope, owner ∈ log.owners)
    (hkind : kind ≠ platformPartKind) (hdot : kind.startsWith "." = false) (name : String) :
    (name ∈ language.candidates (some scope) (.type [kind] true) ↔
        ∃ owner ∈ language.types.ancestry scope, log.Declares owner kind name) ∧
      (∀ id, language.types.findNested? scope [kind, name] = some id ↔
        ∃ owner, log.Nearest kind (language.types.ancestry scope) owner ∧
          log.lookup? owner kind name = some id) ∧
      ((name ∈ language.candidates (some scope) (.type [kind] true) ↔
          (language.types.findNested? scope [kind, name]).isSome) ↔
        ¬ log.Hides kind (language.types.ancestry scope) name) := by
  have hlisted : name ∈ language.candidates (some scope) (.type [kind] true) ↔
      ∃ owner ∈ language.types.ancestry scope, log.Declares owner kind name := by
    rw [mem_candidates_iff hkind hdot, TypeTable.exists_mem_symbolNames_iff h hchain]
  refine ⟨hlisted, fun id => TypeTable.findNested?_eq_some_iff h hchain, ?_⟩
  rw [hlisted, TypeTable.isSome_findNested?_iff h hchain, TypeLog.declares_nearest_iff_not_hides]

/-- A platform with a radar among its sensors, and a fighter that is based on the platform and has a
part of some kind. -/
def fighterTypes (kind part : String) : TypeTable :=
  let platform := ({} : TypeTable).declare TypeTable.basicRoot "platformType" "WSF_PLATFORM" none
  let radar := platform.1.declare platform.2 "sensors" "RADAR_1" none
  let fighter := radar.1.declare TypeTable.userRoot "platformType" "fighter" (some platform.2)
  (fighter.1.declare fighter.2 kind part none).1

/-- The fighter and the platform may be owners. -/
theorem exists_logged_fighterTypes (kind part : String) :
    ∃ log, TypeTable.Logged log (fighterTypes kind part) ∧ ⟨3⟩ ∈ log.owners ∧ ⟨7⟩ ∈ log.owners := by
  refine ⟨_, .declare kind part none (.declare "platformType" "fighter" _
    (.declare "sensors" "RADAR_1" none (.declare "platformType" "WSF_PLATFORM" none .new ?_) ?_)
      ?_) ?_, List.mem_cons_of_mem _ ?_, List.mem_cons_of_mem _ ?_⟩
  all_goals decide +kernel

/-- A fighter with a radio inherits the radar, and no sensor is hidden from it. -/
theorem candidates_agree_fighterTypes :
    "RADAR_1" ∈ ({ types := fighterTypes "comms" "LINK_16" } : Language).candidates (some ⟨7⟩)
        (.type ["sensors"] true) ∧
      ∀ name, name ∈ ({ types := fighterTypes "comms" "LINK_16" } : Language).candidates
          (some ⟨7⟩) (.type ["sensors"] true) ↔
        ((fighterTypes "comms" "LINK_16").findNested? ⟨7⟩ ["sensors", name]).isSome := by
  refine ⟨by decide +kernel, fun name => ?_⟩
  obtain ⟨log, hlogged, hplatform, hfighter⟩ := exists_logged_fighterTypes "comms" "LINK_16"
  have hancestry : (fighterTypes "comms" "LINK_16").ancestry ⟨7⟩ = [⟨7⟩, ⟨3⟩] := by decide +kernel
  have hchain : ∀ owner ∈ (fighterTypes "comms" "LINK_16").ancestry ⟨7⟩, owner ∈ log.owners := by
    rw [hancestry]
    exact List.forall_mem_cons.2 ⟨hfighter, List.forall_mem_singleton.2 hplatform⟩
  refine (candidates_agree_iff hlogged hchain (by decide) (by decide +kernel) name).2.2.2 ?_
  rw [hancestry]
  rintro ⟨⟨owner, hmem, hdeclares⟩, nearest, hnearest, hnot⟩
  -- the fighter declares no sensors of its own, so the platform is the nearest type that does
  have hkind : ¬ log.DeclaresKind ⟨7⟩ "sensors" := by
    rw [← hlogged.separates.kinds hfighter]
    decide +kernel
  cases hnearest with
  | here hnearest => exact hkind hnearest
  | there _ hnearest =>
      obtain rfl := List.mem_singleton.1 hnearest.mem
      obtain rfl | hmem := List.mem_cons.1 hmem
      · exact hkind ⟨name, hdeclares⟩
      · obtain rfl := List.mem_singleton.1 hmem
        exact hnot hdeclares

/-- A fighter with a sensor of its own still lists the radar, but look-up does not find it. -/
theorem not_candidates_agree :
    ¬ ∀ (language : Language) (log : TypeLog) (scope : TypeId) (kind name : String),
      TypeTable.Logged log language.types → scope ∈ log.owners → kind ≠ platformPartKind →
      kind.startsWith "." = false →
      (name ∈ language.candidates (some scope) (.type [kind] true) ↔
        (language.types.findNested? scope [kind, name]).isSome) := by
  intro h
  obtain ⟨log, hlogged, -, hfighter⟩ := exists_logged_fighterTypes "sensors" "IRST"
  have hagree := h { types := fighterTypes "sensors" "IRST" } log ⟨7⟩ "sensors" "RADAR_1" hlogged
    hfighter (by decide) (by decide +kernel)
  have hlisted : "RADAR_1" ∈ ({ types := fighterTypes "sensors" "IRST" } : Language).candidates
      (some ⟨7⟩) (.type ["sensors"] true) := by decide +kernel
  exact absurd (hagree.1 hlisted) (by decide +kernel)

end Language

end Typeahead
