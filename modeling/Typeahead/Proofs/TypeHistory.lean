/-
Tables that are built by calls.

A table of types is built from its two roots by calls that add a type or declare one under an owner
and a kind.  A caller may name as owner whatever an earlier call returned, and may give a type any
base at all.  The symbols of such an owner are the containers of its kinds, made by the first
declaration under the kind and known to the table only; the symbols of a container are the types
declared under its owner and kind.

Main definitions:

* `Typeahead.TypeLog` — calls, with the types they made;
* `Typeahead.TypeLog.lookup?` — the last type declared under an owner, a kind and a name;
* `Typeahead.TypeTable.Logged` — a table that is built by calls;
* `Typeahead.TypeTable.Separates` — owners and containers are kept apart.

Main results:

* `Typeahead.TypeTable.ownSymbol?_declare` — the symbols of each type after a declaration;
* `Typeahead.TypeTable.Logged.separates` — owners and containers are kept apart, and the container
  of a kind leads to what was declared last.
-/

import Typeahead.Types.Basic

set_option relaxedAutoImplicit false
set_option autoImplicit false

namespace Typeahead

/-! ### Calls -/

/-- A call that enters a type into a table. -/
inductive TypeCall where
  | add (name : String) (base : Option TypeId)
  | declare (owner : TypeId) (kind name : String) (base : Option TypeId)
  deriving DecidableEq, Repr

/-- Calls with the types that they made, the last call first. -/
abbrev TypeLog := List (TypeCall × TypeId)

namespace TypeLog

variable {log : TypeLog} {call : TypeCall} {id owner owner' : TypeId}
  {kind kind' name name' : String} {base : Option TypeId}

/-- The types that may own others: the roots, and what the calls returned. -/
def owners (log : TypeLog) : List TypeId :=
  log.map Prod.snd ++ [TypeTable.basicRoot, TypeTable.userRoot]

/-- The name is declared under the owner and the kind. -/
def Declares (log : TypeLog) (owner : TypeId) (kind name : String) : Prop :=
  ∃ base id, (.declare owner kind name base, id) ∈ log

/-- Some name is declared under the owner and the kind. -/
def DeclaresKind (log : TypeLog) (owner : TypeId) (kind : String) : Prop :=
  ∃ name, log.Declares owner kind name

/-- The type that was declared last under the owner, the kind and the name. -/
def lookup? : TypeLog → TypeId → String → String → Option TypeId
  | [], _, _, _ => none
  | (.add _ _, _) :: log, owner, kind, name => lookup? log owner kind name
  | (.declare owner' kind' name' _, id) :: log, owner, kind, name =>
      if owner' = owner ∧ kind' = kind ∧ name' = name then some id
      else lookup? log owner kind name

theorem mem_owners_cons {other : TypeId} :
    other ∈ owners ((call, id) :: log) ↔ other = id ∨ other ∈ log.owners := List.mem_cons

theorem declares_add : Declares ((.add name' base, id) :: log) owner kind name ↔
    log.Declares owner kind name := by
  simp [Declares]

theorem declaresKind_add : DeclaresKind ((.add name base, id) :: log) owner kind ↔
    log.DeclaresKind owner kind := by
  simp only [DeclaresKind, declares_add]

theorem declares_declare :
    Declares ((.declare owner' kind' name' base, id) :: log) owner kind name ↔
      (owner' = owner ∧ kind' = kind ∧ name' = name) ∨ log.Declares owner kind name := by
  simp only [Declares, List.mem_cons, Prod.mk.injEq, TypeCall.declare.injEq]
  constructor
  · rintro ⟨base, id, ⟨⟨rfl, rfl, rfl, -⟩, -⟩ | h⟩
    · exact .inl ⟨rfl, rfl, rfl⟩
    · exact .inr ⟨base, id, h⟩
  · rintro (⟨rfl, rfl, rfl⟩ | ⟨base, id, h⟩)
    · exact ⟨_, _, .inl ⟨⟨rfl, rfl, rfl, rfl⟩, rfl⟩⟩
    · exact ⟨base, id, .inr h⟩

theorem declaresKind_declare :
    DeclaresKind ((.declare owner' kind' name base, id) :: log) owner kind ↔
      (owner' = owner ∧ kind' = kind) ∨ log.DeclaresKind owner kind := by
  simp only [DeclaresKind, declares_declare, exists_or, exists_and_left, exists_eq', and_true]

theorem isSome_lookup?_iff :
    (log.lookup? owner kind name).isSome ↔ log.Declares owner kind name := by
  induction log with
  | nil => simp [lookup?, Declares]
  | cons entry log ih =>
      obtain ⟨call, id⟩ := entry
      cases call with
      | add name' base => rw [lookup?, ih, declares_add]
      | declare owner' kind' name' base =>
          rw [lookup?, declares_declare]
          split
          · next h => simp [h]
          · next h => rw [ih, or_iff_right h]

end TypeLog

namespace TypeTable

variable {table : TypeTable} {id owner symbol : TypeId} {key kind name : String}
  {base : Option TypeId}

/-- A table that is built by calls.  An owner is a root or was returned by an earlier call, and a
base is anything. -/
inductive Logged : TypeLog → TypeTable → Prop
  | new : Logged [] {}
  | add {log : TypeLog} {table : TypeTable} (name : String) (base : Option TypeId) :
      Logged log table → Logged ((.add name base, table.nextId) :: log) (table.add name base)
  | declare {log : TypeLog} {table : TypeTable} {owner : TypeId} (kind name : String)
      (base : Option TypeId) : Logged log table → owner ∈ log.owners →
      Logged ((.declare owner kind name base, (table.declare owner kind name base).2) :: log)
        (table.declare owner kind name base).1

/-! ### Single updates -/

/-- There is a type at the place. -/
def Has (table : TypeTable) (id : TypeId) : Prop := id.index < table.types.size

instance : Decidable (table.Has id) := inferInstanceAs (Decidable (_ < _))

/-- The base of the type at a place. -/
def base? (table : TypeTable) (id : TypeId) : Option TypeId := (table.get? id).bind TypeInfo.base

theorem exists_get? (h : table.Has id) : ∃ info, table.get? id = some info :=
  ⟨_, Array.getElem?_eq_getElem h⟩

theorem get?_of_not_has (h : ¬ table.Has id) : table.get? id = none :=
  Array.getElem?_eq_none (Nat.not_lt.1 h)

theorem ownSymbol?_of_not_has (h : ¬ table.Has id) : table.ownSymbol? id key = none := by
  rw [ownSymbol?, get?_of_not_has h, Option.bind_none]

theorem base?_of_not_has (h : ¬ table.Has id) : table.base? id = none := by
  rw [base?, get?_of_not_has h, Option.bind_none]

theorem not_has_nextId : ¬ table.Has table.nextId := Nat.lt_irrefl _

theorem get?_add :
    (table.add name base).get? id =
      if id = table.nextId then some { name, base } else table.get? id := by
  rw [get?, add, Array.getElem?_push]
  by_cases h : id.index = table.types.size
  · have hid : id = table.nextId := by cases id; exact congrArg TypeId.mk h
    rw [if_pos h, if_pos hid]
  · have hid : id ≠ table.nextId := fun heq => h (congrArg TypeId.index heq)
    rw [if_neg h, if_neg hid, get?]

/-- A new type has no symbols. -/
theorem ownSymbol?_add : (table.add name base).ownSymbol? id key = table.ownSymbol? id key := by
  rw [ownSymbol?, get?_add]
  split
  · next h =>
      rw [h, ownSymbol?_of_not_has not_has_nextId]
      rfl
  · rfl

theorem base?_add :
    (table.add name base).base? id = if id = table.nextId then base else table.base? id := by
  rw [base?, get?_add]
  split <;> rfl

theorem has_add : (table.add name base).Has id ↔ table.Has id ∨ id = table.nextId := by
  cases id
  simp only [Has, add, nextId, Array.size_push, TypeId.mk.injEq]
  omega

theorem get?_addSymbol :
    (table.addSymbol owner kind symbol).get? id =
      if id = owner then (table.get? id).map fun info =>
        { info with symbols := info.symbols.insert kind symbol }
      else table.get? id := by
  rw [get?, addSymbol, Array.getElem?_modify]
  by_cases h : owner.index = id.index
  · have hid : id = owner := by cases id; cases owner; exact congrArg TypeId.mk h.symm
    rw [if_pos h, if_pos hid, get?]
  · have hid : id ≠ owner := fun heq => h (congrArg TypeId.index heq).symm
    rw [if_neg h, if_neg hid, get?]

theorem ownSymbol?_addSymbol (howner : table.Has owner) :
    (table.addSymbol owner kind symbol).ownSymbol? id key =
      if id = owner ∧ key = kind then some symbol else table.ownSymbol? id key := by
  rw [ownSymbol?, get?_addSymbol]
  by_cases hid : id = owner
  · subst hid
    obtain ⟨info, hinfo⟩ := exists_get? howner
    simp only [hinfo, if_true, Option.map_some, Option.bind_some, SymbolTable.find?_insert,
      ownSymbol?, true_and, eq_comm]
  · rw [if_neg hid, if_neg fun h => hid h.1, ownSymbol?]

theorem base?_addSymbol : (table.addSymbol owner kind symbol).base? id = table.base? id := by
  rw [base?, get?_addSymbol, base?]
  split
  · cases table.get? id <;> rfl
  · rfl

theorem has_addSymbol : (table.addSymbol owner kind symbol).Has id ↔ table.Has id := by
  rw [Has, addSymbol, Array.size_modify, Has]

/-! ### Owners and containers -/

/-- The type is a container: it is made by the table itself and has no base. -/
structure IsContainer (log : TypeLog) (table : TypeTable) (id : TypeId) : Prop where
  has : table.Has id
  not_owner : id ∉ log.owners
  no_base : table.base? id = none

/-- Owners and containers are kept apart: the symbols of an owner are containers, one for each kind
under which something is declared, and those of a container are what was declared last. -/
structure Separates (log : TypeLog) (table : TypeTable) : Prop where
  has : ∀ {owner : TypeId}, owner ∈ log.owners → table.Has owner
  owns : ∀ {owner : TypeId} {kind name : String}, log.Declares owner kind name →
    owner ∈ log.owners
  container : ∀ {owner : TypeId} {kind : String} {box : TypeId}, owner ∈ log.owners →
    table.ownSymbol? owner kind = some box → IsContainer log table box
  apart : ∀ {owner owner' : TypeId} {kind kind' : String} {box : TypeId}, owner ∈ log.owners →
    owner' ∈ log.owners → table.ownSymbol? owner kind = some box →
    table.ownSymbol? owner' kind' = some box → owner' = owner ∧ kind' = kind
  kinds : ∀ {owner : TypeId} {kind : String}, owner ∈ log.owners →
    ((table.ownSymbol? owner kind).isSome ↔ log.DeclaresKind owner kind)
  names : ∀ {owner : TypeId} {kind name : String}, owner ∈ log.owners →
    (table.ownSymbol? owner kind).bind (table.ownSymbol? · name) = log.lookup? owner kind name

/-- The container of a kind is the one there is, or a new type. -/
theorem container_cases (table : TypeTable) (owner : TypeId) (kind : String) :
    (table.ownSymbol? owner kind = some (table.container owner kind).2 ∧
        (table.container owner kind).1 = table) ∨
      (table.ownSymbol? owner kind = none ∧ (table.container owner kind).2 = table.nextId ∧
        (table.container owner kind).1 =
          (table.add kind none).addSymbol owner kind table.nextId) := by
  rw [container]
  cases h : table.ownSymbol? owner kind with
  | some id => exact .inl ⟨rfl, rfl⟩
  | none => exact .inr ⟨rfl, rfl, rfl⟩

section Declare

variable {log : TypeLog} (h : Separates log table) (howner : owner ∈ log.owners)
include h howner

theorem container_not_owner : (table.container owner kind).2 ∉ log.owners := by
  obtain ⟨hsymbol, -⟩ | ⟨-, hbox, -⟩ := table.container_cases owner kind
  · exact (h.container howner hsymbol).not_owner
  · rw [hbox]
    exact fun hmem => not_has_nextId (h.has hmem)

theorem container_no_base : table.base? (table.container owner kind).2 = none := by
  obtain ⟨hsymbol, -⟩ | ⟨-, hbox, -⟩ := table.container_cases owner kind
  · exact (h.container howner hsymbol).no_base
  · rw [hbox, base?_of_not_has not_has_nextId]

/-- No other kind has the same container. -/
theorem eq_of_ownSymbol?_container {other : TypeId} (hother : other ∈ log.owners)
    (hsymbol : table.ownSymbol? other key = some (table.container owner kind).2) :
    other = owner ∧ key = kind := by
  obtain ⟨hbox, -⟩ | ⟨-, hbox, -⟩ := table.container_cases owner kind
  · exact h.apart howner hother hbox hsymbol
  · rw [hbox] at hsymbol
    exact absurd (h.container hother hsymbol).has not_has_nextId

omit howner h in
/-- The symbols of the container, before it may have to be made. -/
theorem ownSymbol?_container : table.ownSymbol? (table.container owner kind).2 name =
    (table.ownSymbol? owner kind).bind (table.ownSymbol? · name) := by
  obtain ⟨hsymbol, -⟩ | ⟨hsymbol, hbox, -⟩ := table.container_cases owner kind
  · rw [hsymbol, Option.bind_some]
  · rw [hsymbol, hbox, ownSymbol?_of_not_has not_has_nextId, Option.bind_none]

theorem has_container : (table.container owner kind).1.Has id ↔
    table.Has id ∨ id = (table.container owner kind).2 := by
  obtain ⟨hsymbol, htable⟩ | ⟨-, hbox, htable⟩ := table.container_cases owner kind
  · rw [htable, or_iff_left_of_imp]
    rintro rfl
    exact (h.container howner hsymbol).has
  · rw [htable, has_addSymbol, has_add, hbox]

theorem ownSymbol?_container_fst : (table.container owner kind).1.ownSymbol? id key =
    if id = owner ∧ key = kind then some (table.container owner kind).2
    else table.ownSymbol? id key := by
  obtain ⟨hsymbol, htable⟩ | ⟨-, hbox, htable⟩ := table.container_cases owner kind
  · rw [htable]
    split
    · next heq => rw [heq.1, heq.2, hsymbol]
    · rfl
  · rw [htable, hbox, ownSymbol?_addSymbol (has_add.2 (.inl (h.has howner))), ownSymbol?_add]

omit howner h in
theorem base?_container_fst :
    (table.container owner kind).1.base? id = table.base? id := by
  obtain ⟨-, htable⟩ | ⟨-, -, htable⟩ := table.container_cases owner kind
  · rw [htable]
  · rw [htable, base?_addSymbol, base?_add]
    split
    · next heq => rw [heq, base?_of_not_has not_has_nextId]
    · rfl

/-- The symbols after a declaration: the new type in the container, and the container. -/
theorem ownSymbol?_declare : (table.declare owner kind name base).1.ownSymbol? id key =
    if id = (table.container owner kind).2 ∧ key = name then
      some (table.declare owner kind name base).2
    else if id = owner ∧ key = kind then some (table.container owner kind).2
    else table.ownSymbol? id key := by
  have hbox : (table.container owner kind).1.Has (table.container owner kind).2 :=
    (has_container h howner).2 (.inr rfl)
  simp only [declare]
  rw [ownSymbol?_addSymbol (has_add.2 (.inl hbox)), ownSymbol?_add,
    ownSymbol?_container_fst h howner]

omit howner h in
theorem base?_declare : (table.declare owner kind name base).1.base? id =
    if id = (table.declare owner kind name base).2 then base else table.base? id := by
  simp only [declare]
  rw [base?_addSymbol, base?_add, base?_container_fst]
  rfl

theorem has_declare : (table.declare owner kind name base).1.Has id ↔
    table.Has id ∨ id = (table.container owner kind).2 ∨
      id = (table.declare owner kind name base).2 := by
  simp only [declare]
  rw [has_addSymbol, has_add, has_container h howner, or_assoc]

/-- The type that a declaration makes is new, and is not the container. -/
theorem declare_snd_fresh : ¬ table.Has (table.declare owner kind name base).2 ∧
    (table.declare owner kind name base).2 ≠ (table.container owner kind).2 := by
  have hfresh : ¬ (table.container owner kind).1.Has (table.declare owner kind name base).2 :=
    not_has_nextId
  rw [has_container h howner, not_or] at hfresh
  exact hfresh

/-- The symbols of an owner after a declaration. -/
theorem ownSymbol?_declare_owner {other : TypeId}
    (hother : other ∈ log.owners ∨ other = (table.declare owner kind name base).2) :
    (table.declare owner kind name base).1.ownSymbol? other key =
      if other = owner ∧ key = kind then some (table.container owner kind).2
      else table.ownSymbol? other key := by
  rw [ownSymbol?_declare h howner, if_neg]
  rintro ⟨rfl, -⟩
  rcases hother with hother | hother
  · exact container_not_owner h howner hother
  · exact (declare_snd_fresh h howner).2 hother.symm

end Declare

/-! ### Every table -/

section NotHas

variable {log : TypeLog} (h : Separates log table) (hid : ¬ table.Has id)
include h hid

/-- Nothing is declared under a type that is not there. -/
theorem Separates.not_declares : ¬ log.Declares id kind name :=
  fun hdeclares => hid (h.has (h.owns hdeclares))

theorem Separates.kinds_of_not_has :
    (table.ownSymbol? id kind).isSome ↔ log.DeclaresKind id kind := by
  rw [ownSymbol?_of_not_has hid, Option.isSome_none, Bool.false_eq_true, false_iff]
  exact fun ⟨_, hdeclares⟩ => h.not_declares hid hdeclares

theorem Separates.names_of_not_has :
    (table.ownSymbol? id kind).bind (table.ownSymbol? · name) = log.lookup? id kind name := by
  rw [ownSymbol?_of_not_has hid, Option.bind_none, eq_comm, ← Option.not_isSome_iff_eq_none,
    TypeLog.isSome_lookup?_iff]
  exact h.not_declares hid

end NotHas

theorem separates_new : Separates [] {} := by
  have hroots : ∀ {owner : TypeId}, owner ∈ TypeLog.owners [] →
      owner = basicRoot ∨ owner = userRoot := by simp [TypeLog.owners]
  have hsymbols : ∀ {owner : TypeId} {kind : String}, owner ∈ TypeLog.owners [] →
      ({} : TypeTable).ownSymbol? owner kind = none := by
    intro owner kind howner
    obtain rfl | rfl := hroots howner
    all_goals rfl
  refine ⟨?_, ?_, ?_, ?_, ?_, ?_⟩
  · intro owner howner
    obtain rfl | rfl := hroots howner
    all_goals decide
  · rintro owner kind name ⟨base, id, hmem⟩
    cases hmem
  · intro owner kind box howner hbox
    rw [hsymbols howner] at hbox
    cases hbox
  · intro owner owner' kind kind' box howner _ hbox
    rw [hsymbols howner] at hbox
    cases hbox
  · intro owner kind howner
    rw [hsymbols howner]
    simp [TypeLog.DeclaresKind, TypeLog.Declares]
  · intro owner kind name howner
    rw [hsymbols howner]
    rfl

theorem Separates.add {log : TypeLog} (h : Separates log table) (name : String)
    (base : Option TypeId) :
    Separates ((.add name base, table.nextId) :: log) (table.add name base) := by
  -- the new type has no symbols, and nothing else changes
  have hsymbols : ∀ {owner : TypeId} {kind : String} {box : TypeId},
      owner ∈ TypeLog.owners ((.add name base, table.nextId) :: log) →
      (table.add name base).ownSymbol? owner kind = some box →
      owner ∈ log.owners ∧ table.ownSymbol? owner kind = some box := by
    intro owner kind box howner hbox
    rw [ownSymbol?_add] at hbox
    refine ⟨(TypeLog.mem_owners_cons.1 howner).resolve_left ?_, hbox⟩
    rintro rfl
    rw [ownSymbol?_of_not_has not_has_nextId] at hbox
    cases hbox
  refine ⟨?_, ?_, ?_, ?_, ?_, ?_⟩
  · intro owner howner
    exact has_add.2 ((TypeLog.mem_owners_cons.1 howner).symm.imp_left h.has)
  · intro owner kind name' hdeclares
    exact TypeLog.mem_owners_cons.2 (.inr (h.owns (TypeLog.declares_add.1 hdeclares)))
  · intro owner kind box howner hbox
    obtain ⟨howner, hbox⟩ := hsymbols howner hbox
    obtain ⟨hhas, hnot, hbase⟩ := h.container howner hbox
    have hne : box ≠ table.nextId := by
      rintro rfl
      exact not_has_nextId hhas
    refine ⟨has_add.2 (.inl hhas), ?_, by rw [base?_add, if_neg hne, hbase]⟩
    rw [TypeLog.mem_owners_cons]
    exact not_or.2 ⟨hne, hnot⟩
  · intro owner owner' kind kind' box howner howner' hbox hbox'
    obtain ⟨howner, hbox⟩ := hsymbols howner hbox
    obtain ⟨howner', hbox'⟩ := hsymbols howner' hbox'
    exact h.apart howner howner' hbox hbox'
  · intro owner kind howner
    rw [ownSymbol?_add, TypeLog.declaresKind_add]
    obtain rfl | howner := TypeLog.mem_owners_cons.1 howner
    · exact h.kinds_of_not_has not_has_nextId
    · exact h.kinds howner
  · intro owner kind name' howner
    simp only [ownSymbol?_add, TypeLog.lookup?]
    obtain rfl | howner := TypeLog.mem_owners_cons.1 howner
    · exact h.names_of_not_has not_has_nextId
    · exact h.names howner

section Declare

variable {log : TypeLog} {other : TypeId} (h : Separates log table) (howner : owner ∈ log.owners)
  (hother : other ∈ log.owners ∨ other = (table.declare owner kind name base).2)
include h howner hother

/-- A declaration gives no symbols to the type that it makes. -/
theorem mem_owners_of_ownSymbol? {box : TypeId} (hbox : table.ownSymbol? other key = some box) :
    other ∈ log.owners := by
  obtain howns | rfl := hother
  · exact howns
  · rw [ownSymbol?_of_not_has (declare_snd_fresh h howner).1] at hbox
    cases hbox

theorem isContainer_declare {box : TypeId}
    (hbox : (table.declare owner kind name base).1.ownSymbol? other key = some box) :
    IsContainer ((.declare owner kind name base, (table.declare owner kind name base).2) :: log)
      (table.declare owner kind name base).1 box := by
  obtain ⟨hfresh, hnew⟩ : ¬ table.Has (table.declare owner kind name base).2 ∧
      (table.declare owner kind name base).2 ≠ (table.container owner kind).2 :=
    declare_snd_fresh h howner
  rw [ownSymbol?_declare_owner h howner hother] at hbox
  suffices hold : (table.declare owner kind name base).1.Has box ∧
      box ≠ (table.declare owner kind name base).2 ∧ box ∉ log.owners ∧ table.base? box = none by
    obtain ⟨hhas, hne, hnot, hbase⟩ := hold
    refine ⟨hhas, ?_, by rw [base?_declare, if_neg hne, hbase]⟩
    rw [TypeLog.mem_owners_cons]
    exact not_or.2 ⟨hne, hnot⟩
  split at hbox
  · obtain rfl := Option.some.inj hbox
    exact ⟨(has_declare h howner).2 (.inr (.inl rfl)), hnew.symm, container_not_owner h howner,
      container_no_base h howner⟩
  · obtain ⟨hhas, hnot, hbase⟩ := h.container (mem_owners_of_ownSymbol? h howner hother hbox) hbox
    refine ⟨(has_declare h howner).2 (.inl hhas), ?_, hnot, hbase⟩
    rintro rfl
    exact hfresh hhas

theorem apart_declare {other' box : TypeId} {key' : String}
    (hother' : other' ∈ log.owners ∨ other' = (table.declare owner kind name base).2)
    (hbox : (table.declare owner kind name base).1.ownSymbol? other key = some box)
    (hbox' : (table.declare owner kind name base).1.ownSymbol? other' key' = some box) :
    other' = other ∧ key' = key := by
  rw [ownSymbol?_declare_owner h howner hother] at hbox
  rw [ownSymbol?_declare_owner h howner hother'] at hbox'
  have howns : table.ownSymbol? other key = some box → other ∈ log.owners :=
    mem_owners_of_ownSymbol? h howner hother
  have howns' : table.ownSymbol? other' key' = some box → other' ∈ log.owners :=
    mem_owners_of_ownSymbol? h howner hother'
  split at hbox
  · next heq =>
      obtain rfl := Option.some.inj hbox
      rw [heq.1, heq.2]
      split at hbox'
      · next heq' => exact heq'
      · exact eq_of_ownSymbol?_container h howner (howns' hbox') hbox'
  · split at hbox'
    · next heq' =>
        obtain rfl := Option.some.inj hbox'
        have heq := eq_of_ownSymbol?_container h howner (howns hbox) hbox
        exact ⟨heq'.1.trans heq.1.symm, heq'.2.trans heq.2.symm⟩
    · exact h.apart (howns hbox) (howns' hbox') hbox hbox'

theorem kinds_declare :
    ((table.declare owner kind name base).1.ownSymbol? other key).isSome ↔
      TypeLog.DeclaresKind
        ((.declare owner kind name base, (table.declare owner kind name base).2) :: log)
        other key := by
  rw [ownSymbol?_declare_owner h howner hother, TypeLog.declaresKind_declare]
  split
  · next heq => simp [heq]
  · next hne =>
      rw [or_iff_right fun heq => hne ⟨heq.1.symm, heq.2.symm⟩]
      obtain howns | rfl := hother
      · exact h.kinds howns
      · exact h.kinds_of_not_has (declare_snd_fresh h howner).1

theorem names_declare {name' : String} :
    ((table.declare owner kind name base).1.ownSymbol? other key).bind
        ((table.declare owner kind name base).1.ownSymbol? · name') =
      TypeLog.lookup?
        ((.declare owner kind name base, (table.declare owner kind name base).2) :: log)
        other key name' := by
  rw [ownSymbol?_declare_owner h howner hother, TypeLog.lookup?]
  split
  · next heq =>
      obtain ⟨rfl, rfl⟩ := heq
      have hbox : (table.container other key).2 ≠ other := by
        intro heq
        exact container_not_owner h howner (heq.symm ▸ howner)
      simp only [Option.bind_some, ownSymbol?_declare h howner, hbox, false_and, if_false,
        true_and, ownSymbol?_container, h.names howner, @eq_comm _ name']
  · next hne =>
      rw [if_neg fun heq => hne ⟨heq.1.symm, heq.2.1.symm⟩]
      obtain howns | rfl := hother
      · rw [← h.names howns]
        cases hbox : table.ownSymbol? other key with
        | none => rfl
        | some box =>
            -- the container is another one, and is not the owner
            have hcontainer : box ≠ (table.container owner kind).2 := by
              rintro rfl
              exact hne (eq_of_ownSymbol?_container h howner howns hbox)
            have hnot : box ≠ owner := by
              rintro rfl
              exact (h.container howns hbox).not_owner howner
            simp only [Option.bind_some, ownSymbol?_declare h howner, hcontainer, hnot,
              false_and, if_false]
      · rw [← h.names_of_not_has (declare_snd_fresh h howner).1,
          ownSymbol?_of_not_has (declare_snd_fresh h howner).1]
        rfl

end Declare

theorem Separates.declare {log : TypeLog} (h : Separates log table) (howner : owner ∈ log.owners)
    (kind name : String) (base : Option TypeId) :
    Separates ((.declare owner kind name base, (table.declare owner kind name base).2) :: log)
      (table.declare owner kind name base).1 := by
  have hmem : ∀ {other : TypeId},
      other ∈ TypeLog.owners
        ((.declare owner kind name base, (table.declare owner kind name base).2) :: log) →
      other ∈ log.owners ∨ other = (table.declare owner kind name base).2 :=
    fun hother => (TypeLog.mem_owners_cons.1 hother).symm
  exact
    { has := fun hother => (has_declare h howner).2 ((hmem hother).imp h.has .inr)
      owns := by
        intro other key name' hdeclares
        rcases TypeLog.declares_declare.1 hdeclares with ⟨rfl, -⟩ | hdeclares
        · exact TypeLog.mem_owners_cons.2 (.inr howner)
        · exact TypeLog.mem_owners_cons.2 (.inr (h.owns hdeclares))
      container := fun hother hbox => isContainer_declare h howner (hmem hother) hbox
      apart := fun hother hother' hbox hbox' =>
        apart_declare h howner (hmem hother) (hmem hother') hbox hbox'
      kinds := fun hother => kinds_declare h howner (hmem hother)
      names := fun hother => names_declare h howner (hmem hother) }

/-- Owners and containers are kept apart in every table that is built by calls. -/
theorem Logged.separates {log : TypeLog} (h : Logged log table) : Separates log table := by
  induction h with
  | new => exact separates_new
  | add name base _ ih => exact ih.add name base
  | declare kind name base _ howner ih => exact ih.declare howner kind name base

end TypeTable

end Typeahead
