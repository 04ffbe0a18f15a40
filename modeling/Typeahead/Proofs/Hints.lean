/-
Hints for position-determined grammars.

Below the caps nothing is merged and nothing is put off: the shapes of an outline are then the texts
of its word lists.  A command matches a query if each of its words at a typed place is a pattern, is
the typed word, or, at the place of the cursor, agrees with the typed word as far as both go.  The
hints are the texts of the commands that match, in increasing order.

Main definitions:

* `Typeahead.Grammar.Unmerged` — no sequence shows as a single placeholder;
* `Typeahead.Query.Matches` — a command matches the typed words;
* `Typeahead.Outline.Shows` — the hints of an outline are the texts of its word lists.

Main results:

* `Typeahead.Outline.shapes_shows` — below the cap the shapes are the texts of the word lists;
* `Typeahead.Language.hint_exact` — below the caps the hints are the commands that match.
-/

import Typeahead.Proofs.Joining
import Typeahead.Proofs.Layered
import Typeahead.Proofs.Settling
import Typeahead.Proofs.Sorting

set_option relaxedAutoImplicit false
set_option autoImplicit false

namespace Typeahead

/-- No sequence that is reached shows as a single placeholder. -/
def Grammar.Unmerged (grammar : Grammar) (root : RuleId) : Prop :=
  ∀ id children singleToken isError, grammar.Reaches root id →
    grammar.kind? id = some (.sequence children singleToken isError) → singleToken = false

/-! ### The shapes of an outline -/

namespace Outline

variable {grammar : Grammar} {root : RuleId} {cap : Nat}

/-- The hints are the texts of the word lists, and no more than the outline has variants. -/
structure Shows (grammar : Grammar) (outline : Outline) (hints : List Hint) : Prop where
  mem : ∀ hint, hint ∈ hints ↔
    ∃ words, outline.Yields grammar words ∧ hint = words.map Word.text
  length : hints.length ≤ outline.variants grammar.parseChoices

theorem Shows.ne_nil (hg : grammar.PositionDetermined root) {outline : Outline}
    (hreg : outline.Regular grammar root) {hints : List Hint} (h : Shows grammar outline hints) :
    hints ≠ [] := by
  obtain ⟨words, hwords⟩ := hreg.exists_yields hg
  exact List.ne_nil_of_mem ((h.mem _).2 ⟨words, hwords, rfl⟩)

theorem variantsAll_pos {choices : RuleId → Nat} {parts : List Outline}
    (h : ∀ part ∈ parts, 0 < part.variants choices) : 0 < variantsAll choices parts := by
  induction parts with
  | nil => exact Nat.one_pos
  | cons part parts ih =>
      exact Nat.mul_pos (h part (List.mem_cons_self ..))
        (ih fun other hother => h other (List.mem_cons_of_mem _ hother))

theorem variants_le_variantsAny {choices : RuleId → Nat} {branches : List Outline}
    {branch : Outline} (h : branch ∈ branches) :
    branch.variants choices ≤ variantsAny choices branches := by
  induction branches with
  | nil => cases h
  | cons first branches ih =>
      rw [variantsAny]
      rcases List.mem_cons.1 h with rfl | h
      · exact Nat.le_add_right ..
      · exact (ih h).trans (Nat.le_add_left ..)

theorem Regular.variants_pos {choices : RuleId → Nat} {outline : Outline}
    (h : outline.Regular grammar root) (hexp : outline.isExpanded = true) :
    0 < outline.variants choices := by
  induction outline with
  | blank mark => exact h.elim
  | scope mark type => exact h.elim
  | deferred mark part => cases hexp
  | word mark w => exact Nat.one_pos
  | sequence mark info parts ih =>
      exact variantsAll_pos fun part hmem =>
        ih part hmem (h.2.2.2.regular part hmem) (allExpanded_iff.1 hexp part hmem)
  | choice mark branches ih =>
      obtain ⟨branch, hmem⟩ := List.exists_mem_of_ne_nil _ h.1
      exact (ih branch hmem (regularBranches_iff.1 h.2.2 branch hmem)
        (allExpanded_iff.1 hexp branch hmem)).trans_le (variants_le_variantsAny hmem)

/-! Branches: one with the shapes of the branch before it adds nothing. -/

theorem mem_branchShapes (first : Bool) (previous : Option (List Hint)) {branches : List Outline}
    {hint : Hint} :
    (hint ∈ previous.getD [] ∨ hint ∈ branchShapes cap first previous branches) ↔
      hint ∈ previous.getD [] ∨ ∃ branch ∈ branches, hint ∈ branch.shapes cap first := by
  induction branches generalizing previous with
  | nil => simp [branchShapes]
  | cons branch branches ih =>
      have hrest := ih (some (branch.shapes cap first))
      rw [Option.getD_some] at hrest
      rw [branchShapes]
      simp only [List.mem_append, List.mem_cons, exists_eq_or_imp, ← hrest]
      by_cases hsame : previous = some (branch.shapes cap first)
      · simp [hsame]
      · simp [hsame]

theorem length_branchShapes_le (first : Bool) (previous : Option (List Hint))
    {choices : RuleId → Nat} {branches : List Outline}
    (h : ∀ branch ∈ branches, (branch.shapes cap first).length ≤ branch.variants choices) :
    (branchShapes cap first previous branches).length ≤ variantsAny choices branches := by
  induction branches generalizing previous with
  | nil => simp [branchShapes]
  | cons branch branches ih =>
      have hhead := h branch (List.mem_cons_self ..)
      have hrest := ih (some (branch.shapes cap first)) fun other hother =>
        h other (List.mem_cons_of_mem _ hother)
      rw [branchShapes, variantsAny, List.length_append]
      split
      · rw [List.length_nil]
        omega
      · omega

/-! Parts: each one is joined to all that comes before it. -/

theorem partShapes_shows (hg : grammar.PositionDetermined root) {joined : List Hint}
    {parts : List Outline} (hreg : ∀ part ∈ parts, part.Regular grammar root)
    (hpos : ∀ part ∈ parts, 0 < part.variants grammar.parseChoices)
    (hshows : ∀ part ∈ parts, part.variants grammar.parseChoices ≤ cap →
      Shows grammar part (part.shapes cap false)) (hne : joined ≠ [])
    (hcap : joined.length * variantsAll grammar.parseChoices parts ≤ cap) :
    (∀ hint, hint ∈ partShapes cap false joined parts ↔
      ∃ left ∈ joined, ∃ words, YieldsAll grammar parts words ∧
        hint = left ++ words.map Word.text) ∧
    (partShapes cap false joined parts).length ≤
      joined.length * variantsAll grammar.parseChoices parts := by
  induction parts generalizing joined with
  | nil => simp [partShapes, YieldsAll, variantsAll]
  | cons part parts ih =>
      have hpart := List.mem_cons_self (a := part) (l := parts)
      rw [variantsAll, ← Nat.mul_assoc] at hcap
      have hrestPos : 0 < variantsAll grammar.parseChoices parts :=
        variantsAll_pos fun other hother => hpos other (List.mem_cons_of_mem _ hother)
      -- what is left of the cap for this part, and for the parts up to here
      have hcapJoined : joined.length * part.variants grammar.parseChoices ≤ cap :=
        (Nat.le_mul_of_pos_right _ hrestPos).trans hcap
      have hcapPart : part.variants grammar.parseChoices ≤ cap :=
        (Nat.le_mul_of_pos_left _ (List.length_pos_iff.2 hne)).trans hcapJoined
      have hown := hshows part hpart hcapPart
      have hownNe := hown.ne_nil hg (hreg part hpart)
      have hlength : joined.length * (part.shapes cap false).length ≤
          joined.length * part.variants grammar.parseChoices :=
        Nat.mul_le_mul_left _ hown.length
      have hjoin := Hint.join_eq_joinAll hne hownNe
        (Hint.combinations_le_iff.2 (.inl (hlength.trans hcapJoined)))
      have hjoinLength := Hint.length_joinAll joined (part.shapes cap false)
      have hrest := ih (fun other hother => hreg other (List.mem_cons_of_mem _ hother))
        (fun other hother => hpos other (List.mem_cons_of_mem _ hother))
        (fun other hother => hshows other (List.mem_cons_of_mem _ hother))
        (Hint.joinAll_ne_nil hne hownNe)
        (by rw [hjoinLength]; exact (Nat.mul_le_mul_right _ hlength).trans hcap)
      rw [partShapes, hjoin]
      constructor
      · intro hint
        rw [hrest.1]
        simp only [Hint.mem_joinAll, hown.mem, YieldsAll]
        constructor
        · rintro ⟨_, ⟨left, hleft, _, ⟨first, hfirst, rfl⟩, rfl⟩, words, hwords, rfl⟩
          refine ⟨left, hleft, first ++ words, ⟨first, words, rfl, hfirst, hwords⟩, ?_⟩
          rw [List.map_append, List.append_assoc]
        · rintro ⟨left, hleft, _, ⟨first, words, rfl, hfirst, hwords⟩, rfl⟩
          refine ⟨left ++ first.map Word.text, ⟨left, hleft, _, ⟨first, hfirst, rfl⟩, rfl⟩, words,
            hwords, ?_⟩
          rw [List.map_append, List.append_assoc]
      · refine hrest.2.trans ?_
        rw [hjoinLength, variantsAll, ← Nat.mul_assoc]
        exact Nat.mul_le_mul_right _ hlength

/-- Below the cap, the shapes of an expanded outline are the texts of its word lists. -/
theorem shapes_shows (hg : grammar.PositionDetermined root) (hunmerged : grammar.Unmerged root)
    {outline : Outline} (hreg : outline.Regular grammar root) (hexp : outline.isExpanded = true)
    (hcap : outline.variants grammar.parseChoices ≤ cap) (first : Bool) :
    Shows grammar outline (outline.shapes cap first) := by
  induction outline generalizing first with
  | blank mark => exact hreg.elim
  | scope mark type => exact hreg.elim
  | deferred mark part => cases hexp
  | word mark w =>
      refine ⟨?_, le_rfl⟩
      intro hint
      simp [shapes, Yields]
  | choice mark branches ih =>
      obtain ⟨hne, -, hbranches⟩ := hreg
      rw [isExpanded, allExpanded_iff] at hexp
      have hshows : ∀ branch ∈ branches, Shows grammar branch (branch.shapes cap first) := by
        intro branch hmem
        exact ih branch hmem (regularBranches_iff.1 hbranches branch hmem) (hexp branch hmem)
          ((variants_le_variantsAny hmem).trans hcap) first
      refine ⟨?_, length_branchShapes_le first none fun branch hmem => (hshows branch hmem).length⟩
      intro hint
      have hmem : hint ∈ branchShapes cap first none branches ↔
          ∃ branch ∈ branches, hint ∈ branch.shapes cap first := by
        simpa using mem_branchShapes first none
      rw [shapes, hmem]
      simp only [Yields, yieldsAny_iff]
      constructor
      · rintro ⟨branch, hbranch, hhint⟩
        obtain ⟨words, hwords, rfl⟩ := ((hshows branch hbranch).mem hint).1 hhint
        exact ⟨words, ⟨branch, hbranch, hwords⟩, rfl⟩
      · rintro ⟨words, ⟨branch, hbranch, hwords⟩, rfl⟩
        exact ⟨branch, hbranch, ((hshows branch hbranch).mem _).2 ⟨words, hwords, rfl⟩⟩
  | sequence mark info parts ih =>
      obtain ⟨⟨id, children, hid, hkind⟩, hne, -, hparts⟩ := hreg
      rw [isExpanded, allExpanded_iff] at hexp
      have hplaceholder : info.placeholder? = none := by
        simp [SequenceInfo.placeholder?, hunmerged id children _ _ hid hkind]
      have hshapes : shapes cap first (.sequence mark info parts) =
          partShapes cap first [] parts := by
        cases first <;> simp [shapes, hplaceholder]
      have hreg := hparts.regular
      have hpos : ∀ part ∈ parts, 0 < part.variants grammar.parseChoices := fun part hmem =>
        (hreg part hmem).variants_pos (hexp part hmem)
      have hshows : ∀ part ∈ parts, part.variants grammar.parseChoices ≤ cap → ∀ first,
          Shows grammar part (part.shapes cap first) := fun part hmem hle first =>
        ih part hmem (hreg part hmem) (hexp part hmem) hle first
      rw [hshapes]
      cases parts with
      | nil => exact absurd rfl hne
      | cons part parts =>
          have hpart := List.mem_cons_self (a := part) (l := parts)
          have hrestPos : 0 < variantsAll grammar.parseChoices parts :=
            variantsAll_pos fun other hother => hpos other (List.mem_cons_of_mem _ hother)
          rw [variants, variantsAll] at hcap
          have hown := hshows part hpart ((Nat.le_mul_of_pos_right _ hrestPos).trans hcap) first
          have hrest := partShapes_shows hg
            (fun other hother => hreg other (List.mem_cons_of_mem _ hother))
            (fun other hother => hpos other (List.mem_cons_of_mem _ hother))
            (fun other hother hle => hshows other (List.mem_cons_of_mem _ hother) hle false)
            (hown.ne_nil hg (hreg part hpart))
            ((Nat.mul_le_mul_right _ hown.length).trans hcap)
          rw [partShapes, Hint.join_nil_left]
          refine ⟨?_, hrest.2.trans (Nat.mul_le_mul_right _ hown.length)⟩
          intro hint
          rw [hrest.1]
          simp only [hown.mem, Yields, YieldsAll]
          constructor
          · rintro ⟨_, ⟨first, hfirst, rfl⟩, words, hwords, rfl⟩
            exact ⟨first ++ words, ⟨first, words, rfl, hfirst, hwords⟩, List.map_append.symm⟩
          · rintro ⟨_, ⟨first, words, rfl, hfirst, hwords⟩, rfl⟩
            exact ⟨_, ⟨first, hfirst, rfl⟩, words, hwords, List.map_append⟩

end Outline

/-! ### Matching commands -/

/-- Each word at a typed place is a pattern, is the typed word, or, at the cursor, agrees with the
typed word as far as both go. -/
def Query.Matches (query : Query) (words : List Word) : Prop :=
  ∀ i word typed, words[i]? = some word → query.words[i]? = some typed →
    word.isPattern = true ∨
      if i = query.active then
        word.text.toList <+: typed.toList ∨ typed.toList <+: word.text.toList
      else word.text = typed

theorem Query.agrees_iff_matches {query : Query} {words : List Word} :
    query.Agrees 0 words ↔ query.Matches words := by
  have haccepts : ∀ i text typed, query.words[i]? = some typed →
      (query.accepts text i = true ↔ if i = query.active then
        text.toList <+: typed.toList ∨ typed.toList <+: text.toList else text = typed) := by
    intro i text typed htyped
    simp only [accepts, htyped]
    split
    · exact agreeSoFar_iff text typed
    · exact beq_iff_eq
  rw [agrees_iff]
  simp only [Nat.zero_add]
  constructor
  · intro h i word typed hword htyped
    exact (h i word hword).imp_right (haccepts i _ typed htyped).1
  · intro h i word hword
    cases htyped : query.words[i]? with
    | none => exact .inr (by rw [accepts, htyped])
    | some typed => exact (h i word typed hword htyped).imp_right (haccepts i _ typed htyped).2

namespace Language

variable {language : Language} {root : RuleId}

/-- The query of a request for hints. -/
def hintQuery (language : Language) (request : Request) : Query :=
  (Reading.ofText request.text request.cursor .hint
    language.settings.includeCommands).query.pastCommand

/-- If no command is longer than the limit, the outcome of the passes is expanded altogether and
yields the commands that match. -/
theorem Settles.expanded (hg : language.grammar.PositionDetermined root) {query : Query}
    {limit : Nat} {outline : Outline}
    (h : language.Settles root query limit (some outline))
    (hlength : ∀ words, language.grammar.Derives root words → words.length ≤ limit) :
    outline.isExpanded = true ∧ ∀ words, outline.Yields language.grammar words ↔
      language.grammar.Derives root words ∧ query.Matches words := by
  obtain ⟨htracks, hexp, hagrees⟩ := h
  have hle : ∀ words, outline.Yields language.grammar words → words.length ≤ limit :=
    fun words hwords => hlength words (htracks.sound words hwords)
  refine ⟨htracks.regular.isExpanded_of_expandedTo hg hexp (by simpa using hle), ?_⟩
  intro words
  rw [← Query.agrees_iff_matches]
  constructor
  · intro hwords
    refine ⟨htracks.sound words hwords, ?_⟩
    have htake := hagrees words hwords
    rwa [List.take_of_length_le (hle words hwords)] at htake
  · rintro ⟨hwords, hmatches⟩
    exact htracks.complete words hwords hmatches

/-- Below the caps, the hints are the texts of the commands that match, in increasing order. -/
theorem hint_exact (request : Request) (hg : language.grammar.PositionDetermined root)
    (hroot : language.grammar.root = some root) (hunmerged : language.grammar.Unmerged root)
    (hlength : ∀ words, language.grammar.Derives root words →
      (words.length : Int) ≤ language.settings.maxHintWords)
    (hchoices : language.grammar.parseChoices root ≤ language.settings.maxHints)
    (hblocks : request.blocks = []) :
    ∃ answer, language.hint request = some answer ∧
      (answer.hints.Pairwise fun a b => a.map utf8Bytes < b.map utf8Bytes) ∧
      ∀ hint, hint ∈ answer.hints ↔ ∃ words, language.grammar.Derives root words ∧
        (language.hintQuery request).Matches words ∧ hint = words.map Word.text := by
  -- the limit is not negative, because some command exists
  obtain ⟨words, hwords⟩ := hg.exists_derives .refl
  have hnonneg : 0 ≤ language.settings.maxHintWords :=
    (Int.natCast_nonneg words.length).trans (hlength words hwords)
  obtain ⟨limit, hlimit⟩ := Int.eq_ofNat_of_zero_le hnonneg
  obtain ⟨outcome, houtcome, hsettles⟩ := settle_settles hg hroot (language.hintQuery request)
    request.scope limit
  rw [← hlimit, ← hblocks, hintQuery] at houtcome
  simp only [hint, houtcome, Option.map_some, Option.some.injEq, exists_eq_left']
  cases outcome with
  | none =>
      refine ⟨.nil, fun hint => ⟨fun h => (List.not_mem_nil h).elim, ?_⟩⟩
      rintro ⟨words, hwords, hmatches, -⟩
      exact absurd (Query.agrees_iff_matches.2 hmatches) (hsettles words hwords)
  | some outline =>
      obtain ⟨hexp, hyields⟩ := Settles.expanded hg hsettles fun words hwords => by
        have hle := hlength words hwords
        rw [hlimit] at hle
        exact Int.ofNat_le.1 hle
      have hshows := Outline.shapes_shows hg hunmerged hsettles.1.regular hexp
        (hsettles.1.variants.trans hchoices) true
      refine ⟨Hint.pairwise_sorted _, ?_⟩
      intro hint
      rw [Hint.mem_sorted, hshows.mem]
      simp only [hyields, and_assoc]

/-- A language with the commands `set on` and `set off`. -/
def switchLanguage : Language where
  grammar :=
    { rules := #[⟨.leaf (.literal "set"), none⟩, ⟨.leaf (.literal "on"), none⟩,
        ⟨.leaf (.literal "off"), none⟩, ⟨.choice [⟨1⟩, ⟨2⟩], none⟩,
        ⟨.sequence [⟨0⟩, ⟨3⟩] false false, none⟩]
      root := some ⟨4⟩ }

theorem derives_switchLanguage {words : List Word} :
    switchLanguage.grammar.Derives ⟨4⟩ words ↔
      words = [.literal "set", .literal "on"] ∨ words = [.literal "set", .literal "off"] := by
  have hset : switchLanguage.grammar.kind? ⟨0⟩ = some (.leaf (.literal "set")) := rfl
  have hon : switchLanguage.grammar.kind? ⟨1⟩ = some (.leaf (.literal "on")) := rfl
  have hoff : switchLanguage.grammar.kind? ⟨2⟩ = some (.leaf (.literal "off")) := rfl
  have hchoice : switchLanguage.grammar.kind? ⟨3⟩ = some (.choice [⟨1⟩, ⟨2⟩]) := rfl
  have hroot : switchLanguage.grammar.kind? ⟨4⟩ =
      some (.sequence [⟨0⟩, ⟨3⟩] false false) := rfl
  simp only [Grammar.derives_sequence hroot, Grammar.derivesAll_cons, Grammar.derives_leaf hset,
    Grammar.derives_choice hchoice, Grammar.derivesAll_nil, List.mem_cons, List.not_mem_nil,
    or_false, exists_eq_or_imp, exists_eq_left, Grammar.derives_leaf hon,
    Grammar.derives_leaf hoff, Leaf.word]
  constructor
  · rintro ⟨_, _, rfl, rfl, _, _, rfl, rfl | rfl, rfl⟩
    · exact .inl rfl
    · exact .inr rfl
  · rintro (rfl | rfl)
    · exact ⟨_, _, rfl, rfl, _, _, rfl, .inl rfl, rfl⟩
    · exact ⟨_, _, rfl, rfl, _, _, rfl, .inr rfl, rfl⟩

/-- With `set of` typed, `set off` is a hint and `set on` is not. -/
theorem hint_exact_switchLanguage :
    ∃ answer, switchLanguage.hint (.atEnd "set of" [] none) = some answer ∧
      ["set", "off"] ∈ answer.hints ∧ ["set", "on"] ∉ answer.hints := by
  have hg : switchLanguage.grammar.PositionDetermined ⟨4⟩ :=
    Grammar.positionDetermined_of_isLayered (by decide +kernel) (by decide)
  have hunmerged : switchLanguage.grammar.Unmerged ⟨4⟩ := by
    rintro ⟨_ | _ | _ | _ | _ | index⟩ children singleToken isError - hkind <;> cases hkind
    rfl
  have hlength : ∀ words, switchLanguage.grammar.Derives ⟨4⟩ words →
      (words.length : Int) ≤ switchLanguage.settings.maxHintWords := by
    intro words hwords
    rcases derives_switchLanguage.1 hwords with rfl | rfl <;> decide
  have hquery : switchLanguage.hintQuery (.atEnd "set of" [] none) = ⟨["set", "of"], 1, .hint⟩ := by
    decide +kernel
  obtain ⟨answer, hanswer, -, hmem⟩ := hint_exact (.atEnd "set of" [] none) hg rfl hunmerged
    hlength (by decide +kernel) rfl
  refine ⟨answer, hanswer, ?_, ?_⟩
  · refine (hmem _).2 ⟨_, derives_switchLanguage.2 (.inr rfl), ?_, rfl⟩
    rw [hquery]
    rintro (_ | _ | i) word typed hword htyped <;> cases hword <;> cases htyped
    · exact .inr rfl
    · exact .inr (.inr (by decide +kernel))
  · intro hon
    obtain ⟨words, hwords, hmatches, htexts⟩ := (hmem _).1 hon
    rw [hquery] at hmatches
    rcases derives_switchLanguage.1 hwords with rfl | rfl
    · have := hmatches 1 _ _ rfl rfl
      revert this
      decide +kernel
    · revert htexts
      decide +kernel

end Language

end Typeahead
