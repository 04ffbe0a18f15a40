/-
Writing a grammar rule by rule.

A draft is a table of rules that is still being written.  Rules are added at its end; recursion is
tied by adding a reference without a target and giving it one later.  Wrapping a rule under a name
also names the wrapped rule, unless it has a name already.

Main definitions:

* `Typeahead.Draft` — the rules written so far;
* `Typeahead.Draft.Step` — one step of writing;
* `Typeahead.Draft.apply` — the effect of a step, with the place of the rule it added;
* `Typeahead.Draft.finish` — the finished grammar, if it is valid.

Main results:

* `Typeahead.Draft.finish_eq_ok_iff` — finishing succeeds exactly when the root and every reference
  lie inside the table.
-/

import Typeahead.Grammar.Basic

set_option relaxedAutoImplicit false
set_option autoImplicit false

namespace Typeahead

/-- The rules written so far. -/
structure Draft where
  rules : Array Rule := #[]
  deriving DecidableEq, Repr

namespace Draft

/-- One step of writing a grammar. -/
inductive Step where
  /-- Adds a rule, with a name if one is given. -/
  | add (kind : RuleKind) (name : Option String := none)
  /-- Adds a rule that stands for `target` under a name. -/
  | wrap (wrapping : Wrapping) (name : String) (target : RuleId)
  /-- Gives a reference its target. -/
  | define (reference target : RuleId)
  /-- Names a rule. -/
  | rename (rule : RuleId) (name : String)
  deriving DecidableEq, Repr

/-- Names the rule at a place; a place outside the table is left alone. -/
def rename (draft : Draft) (id : RuleId) (name : String) : Draft :=
  ⟨draft.rules.modify id.index fun rule => { rule with context := some name }⟩

/-- Names the rule at a place unless it has a name. -/
def inheritName (draft : Draft) (id : RuleId) (name : String) : Draft :=
  ⟨draft.rules.modify id.index fun rule => { rule with context := rule.context <|> some name }⟩

/-- Gives the reference at a place its target; any other rule is left alone. -/
def define (draft : Draft) (id target : RuleId) : Draft :=
  ⟨draft.rules.modify id.index fun rule =>
    match rule.kind with
    | .wrapper .reference _ => { rule with kind := .wrapper .reference (some target) }
    | _ => rule⟩

/-- Adds a rule at the end. -/
def add (draft : Draft) (rule : Rule) : Draft := ⟨draft.rules.push rule⟩

/-- The draft after a step, and the place of the rule that the step added. -/
def apply (draft : Draft) : Step → Draft × Option RuleId
  | .add kind name => (draft.add ⟨kind, name⟩, some ⟨draft.rules.size⟩)
  | .wrap wrapping name target =>
      ((draft.inheritName target name).add ⟨.wrapper wrapping (some target), some name⟩,
        some ⟨draft.rules.size⟩)
  | .define id target => (draft.define id target, none)
  | .rename id name => (draft.rename id name, none)

/-- The draft after a list of steps. -/
def run (draft : Draft) (steps : List Step) : Draft :=
  steps.foldl (fun draft step => (draft.apply step).1) draft

/-- The places that the steps added, step by step. -/
def places (draft : Draft) : List Step → List (Option RuleId)
  | [] => []
  | step :: steps => (draft.apply step).2 :: places (draft.apply step).1 steps

/-- The grammar with the given root, if it is valid. -/
def finish (draft : Draft) (root : RuleId) : Except GrammarError Grammar :=
  let grammar : Grammar := { rules := draft.rules, root := some root }
  grammar.validate.map fun _ => grammar

/-- The grammar that a list of steps writes from nothing. -/
def write (steps : List Step) (root : RuleId) : Except GrammarError Grammar :=
  (run {} steps).finish root

/-- Finishing succeeds exactly when the root and every reference lie inside the table, and then
gives the rules written and the root asked for. -/
theorem finish_eq_ok_iff (draft : Draft) (root : RuleId) (grammar : Grammar) :
    draft.finish root = .ok grammar ↔
      grammar = { rules := draft.rules, root := some root } ∧ root.index < draft.rules.size ∧
        ∀ (id : RuleId) (rule : Rule), draft.rules[id.index]? = some rule →
          ∀ target ∈ rule.kind.references, target.index < draft.rules.size := by
  have hvalid := Grammar.validate_eq_ok_iff { rules := draft.rules, root := some root }
  simp only [Option.some.injEq, exists_eq_left', Grammar.kind?, Option.map_eq_some_iff,
    forall_exists_index, and_imp, forall_apply_eq_imp_iff₂] at hvalid
  simp only [finish]
  cases h : Grammar.validate { rules := draft.rules, root := some root } with
  | error e =>
      rw [h] at hvalid
      simp only [reduceCtorEq, false_iff, Except.map] at hvalid ⊢
      exact fun hand => hvalid hand.2
  | ok u =>
      rw [h] at hvalid
      have hall := hvalid.1 rfl
      simp only [Except.map, Except.ok.injEq]
      exact ⟨fun heq => ⟨heq.symm, hall⟩, fun hand => hand.1.symm⟩

end Draft

end Typeahead
