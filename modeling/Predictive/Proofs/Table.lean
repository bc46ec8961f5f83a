import Predictive.Analysis
import Predictive.Proofs.Validation

/-!
# What the cells of a table say

* `ParsingTable.lookup_of_build`: a cell of a built table holds an index iff its symbol is among the
  selectors of that alternative.
* `ParsingTable.Decides`: the same said by derivations. A table decides a grammar if a token selects
  an alternative iff it can begin it, or the alternative can vanish and the token follows the
  nonterminal.
* `Analysis.run_eq_ok_iff`: an analysis is the result of its stages.
* `Analysis.decides`: the table of every analysis decides its grammar.
-/

namespace Predictive

variable {g : Grammar}

namespace ParsingTable

/-! ## Selectors -/

/-- The selectors of an alternative are the tokens that can begin it and, if it can vanish, those
that follow its nonterminal. -/
theorem exists_selectors {first : FirstSets} {follow : FollowSets} {name : String}
    {after : SymbolSet} (h : follow.of? name = .ok after) (rhs : List Symbol) :
    ∃ tokens, selectors first follow ⟨name, rhs⟩ = .ok tokens ∧ ∀ a : Symbol, a ∈ tokens ↔
      (a ∈ first.ofSequence rhs ∧ a ≠ .empty) ∨ (.empty ∈ first.ofSequence rhs ∧ a ∈ after) := by
  unfold selectors
  simp only [h]
  by_cases he : .empty ∈ first.ofSequence rhs
  · rw [if_pos he]
    exact ⟨_, rfl, fun a => by simp [he]⟩
  · rw [if_neg he]
    refine ⟨_, rfl, fun a => ?_⟩
    have hne (ha : a ∈ first.ofSequence rhs) : a ≠ .empty := fun e => he (e ▸ ha)
    simpa [he] using hne

/-! ## Filling a table -/

/-- Occupied cells hold the index, and none of them held another one. -/
theorem occupy_eq_ok {name : String} {index : Nat} {symbols : List Symbol} {row row' : TableRow}
    (h : occupy name index symbols row = .ok row') :
    (∀ a, row'.find? a = if a ∈ symbols then some (index : Int) else row.find? a) ∧
      ∀ a ∈ symbols, row.find? a = none ∨ row.find? a = some (index : Int) := by
  induction symbols generalizing row with
  | nil =>
    cases h
    exact ⟨fun a => by simp, fun a ha => absurd ha List.not_mem_nil⟩
  | cons s symbols ih =>
    unfold occupy at h
    split at h
    · rename_i hs
      obtain ⟨hfind, hold⟩ := ih h
      simp only [OrderedMap.find?_insert] at hfind hold
      refine ⟨fun a => ?_, fun a ha => ?_⟩
      · rw [hfind a]
        by_cases hmem : a ∈ symbols
        · simp [hmem]
        · by_cases has : a = s <;> simp [has]
      · by_cases has : a = s
        · exact .inl (has ▸ hs)
        · have := hold a ((List.mem_cons.mp ha).resolve_left has)
          rwa [if_neg has] at this
    · rename_i existing hs
      split at h
      · rename_i he
        subst he
        obtain ⟨hfind, hold⟩ := ih h
        refine ⟨fun a => ?_, fun a ha => ?_⟩
        · rw [hfind a]
          by_cases has : a = s
          · simp [has, hs]
          · simp [has]
        · rcases List.mem_cons.mp ha with rfl | ha
          · exact .inr hs
          · exact hold a ha
      · cases h

/-- A filled row holds what it held before, and the indexes of the alternatives at their tokens. -/
theorem fillRow_eq_ok {first : FirstSets} {follow : FollowSets} {name : String} {index : Nat}
    {alts : List (List Symbol)} {row row' : TableRow}
    (h : fillRow first follow name index alts row = .ok row') (a : Symbol) (i : Int) :
    row'.find? a = some i ↔ row.find? a = some i ∨ ∃ k rhs tokens, alts[k]? = some rhs ∧
      selectors first follow ⟨name, rhs⟩ = .ok tokens ∧ a ∈ tokens ∧ i = (index + k : Nat) := by
  induction alts generalizing index row with
  | nil =>
    cases h
    simp
  | cons rhs alts ih =>
    unfold fillRow at h
    split at h
    · cases h
    · rename_i tokens htok
      split at h
      · cases h
      · rename_i row1 hocc
        obtain ⟨hfind, hold⟩ := occupy_eq_ok hocc
        rw [ih h, hfind a]
        constructor
        · rintro (hrow | ⟨k, rhs', tokens', hk, htok', ha, rfl⟩)
          · split at hrow
            · rename_i ha
              cases hrow
              exact .inr ⟨0, rhs, tokens, rfl, htok, ha, rfl⟩
            · exact .inl hrow
          · exact .inr ⟨k + 1, rhs', tokens', hk, htok', ha, by omega⟩
        · rintro (hrow | ⟨k, rhs', tokens', hk, htok', ha, rfl⟩)
          · left
            split
            · rename_i ha
              rcases hold a ha with hn | hs
              · rw [hn] at hrow
                cases hrow
              · rw [← hs, hrow]
            · exact hrow
          · cases k with
            | zero =>
              cases hk
              rw [htok] at htok'
              cases htok'
              left
              rw [if_pos (SortedSet.mem_def.mp ha)]
              rfl
            | succ k => exact .inr ⟨k, rhs', tokens', hk, htok', ha, by omega⟩

/-- **A cell holds an index iff its symbol selects that alternative.** -/
theorem lookup_of_build {first : FirstSets} {follow : FollowSets} {table : ParsingTable}
    (h : build g first follow = .ok table) (name : String) (a : Symbol) (i : Int) :
    table.lookup name a = some i ↔ ∃ alts k rhs tokens, g.rules.find? name = some alts ∧
      alts[k]? = some rhs ∧ selectors first follow ⟨name, rhs⟩ = .ok tokens ∧ a ∈ tokens ∧
      i = (k : Nat) := by
  unfold build at h
  split at h
  · rename_i rows hrows
    cases h
    have hrow := OrderedMap.find?_of_traverse hrows name
    unfold lookup row
    simp only
    split at hrow
    · rename_i hn
      rw [hrow, hn]
      simp
    · rename_i alts hs
      obtain ⟨cells, hfill, hcells⟩ := hrow
      rw [hcells, Option.getD_some, fillRow_eq_ok hfill, hs]
      simp
  · cases h

end ParsingTable

/-! ## Selection by derivations -/

/-- The symbol can be the next token: it is no nonterminal and no mark of the empty string. -/
def Symbol.IsToken (a : Symbol) : Prop := a.isNonterminal = false ∧ a ≠ .empty

theorem Symbol.isToken_endOfInput : endOfInput.IsToken := ⟨rfl, by decide⟩

theorem Grammar.isToken_classify (g : Grammar) (lexeme : Option String) :
    (g.classify lexeme).IsToken := by
  cases lexeme with
  | none => exact Symbol.isToken_endOfInput
  | some lexeme =>
    unfold Grammar.classify
    simp only
    split
    · exact ⟨rfl, fun h => by cases h⟩
    · exact ⟨rfl, by decide⟩

/-- The next token that calls for an alternative: the alternative can begin with it, or vanish in
front of it. -/
def Grammar.Selects (g : Grammar) (name : String) (rhs : List Symbol) (a : Symbol) : Prop :=
  g.Begins a rhs ∨ (g.Vanishes rhs ∧ g.Follows a name)

/-- Every cell holds the index of an alternative. -/
def ParsingTable.CellsValid (table : ParsingTable) (g : Grammar) : Prop :=
  ∀ ⦃name : String⦄ ⦃a : Symbol⦄ ⦃i : Int⦄, table.lookup name a = some i →
    ∃ rhs, g.production? name i = .ok ⟨name, rhs⟩

/-- The table gives every token the one alternative that it selects, and its cells lead nowhere
else. -/
structure ParsingTable.Decides (table : ParsingTable) (g : Grammar) : Prop where
  /-- Every nonterminal in an alternative is declared. -/
  names : g.NamesDeclared
  valid : table.CellsValid g
  /-- A token has the index of an alternative iff it selects the alternative. -/
  lookup_iff : ∀ {name : String} {a : Symbol} {i : Int}, a.IsToken →
    (table.lookup name a = some i ↔ ∃ alts k rhs, g.rules.find? name = some alts ∧
      alts[k]? = some rhs ∧ g.Selects name rhs a ∧ i = (k : Nat))

namespace ParsingTable.Decides

variable {table : ParsingTable} {name : String} {a : Symbol}

theorem production?_of_getElem? {alts : List (List Symbol)} {k : Nat} {rhs : List Symbol}
    (ha : g.rules.find? name = some alts) (hk : alts[k]? = some rhs) :
    g.production? name (k : Nat) = .ok ⟨name, rhs⟩ := by
  unfold Grammar.production?
  simp only [ha, SignedIndex.get?_ofNat, hk]

/-- A token that has a cell selects the alternative there. -/
theorem selects (h : table.Decides g) (ha : a.IsToken) {i : Int} {p : Production}
    (hl : table.lookup name a = some i) (hp : g.production? name i = .ok p) :
    g.Selects name p.rhs a := by
  obtain ⟨alts, k, rhs, hf, hk, hs, rfl⟩ := (h.lookup_iff ha).mp hl
  rw [production?_of_getElem? hf hk] at hp
  cases hp
  exact hs

/-- A token that selects an alternative has its cell. -/
theorem exists_lookup (h : table.Decides g) (ha : a.IsToken) {rhs : List Symbol}
    (hr : g.HasAlternative name rhs) (hs : g.Selects name rhs a) :
    ∃ i, table.lookup name a = some i ∧ g.production? name i = .ok ⟨name, rhs⟩ := by
  obtain ⟨alts, hf, hmem⟩ := hr
  obtain ⟨k, hk⟩ := List.mem_iff_getElem?.mp hmem
  exact ⟨k, (h.lookup_iff ha).mpr ⟨alts, k, rhs, hf, hk, hs, rfl⟩, production?_of_getElem? hf hk⟩

/-- **No token selects two alternatives.** -/
theorem unique (h : table.Decides g) (ha : a.IsToken) {rhs rhs' : List Symbol}
    (hr : g.HasAlternative name rhs) (hs : g.Selects name rhs a)
    (hr' : g.HasAlternative name rhs') (hs' : g.Selects name rhs' a) : rhs = rhs' := by
  obtain ⟨i, hl, hp⟩ := h.exists_lookup ha hr hs
  obtain ⟨i', hl', hp'⟩ := h.exists_lookup ha hr' hs'
  rw [hl] at hl'
  cases hl'
  rw [hp] at hp'
  cases hp'
  rfl

end ParsingTable.Decides

/-- FOLLOW sets hold the tokens that follow their nonterminals, and nothing else. -/
theorem FollowSets.mem_sets_iff_follows (hg : g.EmptyFree) (hd : g.NamesDeclared)
    {follow : FollowSets} {maxPasses : Option Int}
    (h : compute g (.ofGrammar g) maxPasses = .ok follow) {a : Symbol} {name : String} :
    a ∈ follow.sets.of name ↔ a.IsToken ∧ g.Follows a name := by
  constructor
  · intro ha
    obtain ⟨rest, hp⟩ := (mem_sets_iff_path hd h).mp ha
    obtain ⟨hne, hf⟩ := Flow.follows_of_path hg hp rfl
    exact ⟨⟨Flow.isNonterminal_of_path hg hp, hne⟩, hf⟩
  · rintro ⟨ha, hf⟩
    exact (mem_sets_iff hg hd h ha.1).mpr ⟨ha.2, hf⟩

/-- The selectors of an alternative are the tokens that select it. -/
theorem ParsingTable.exists_selecting (hg : g.EmptyFree) (hd : g.NamesDeclared)
    {follow : FollowSets} {maxPasses : Option Int}
    (h : FollowSets.compute g (.ofGrammar g) maxPasses = .ok follow) {name : String}
    {rhs : List Symbol} (hr : g.HasAlternative name rhs) :
    ∃ tokens, selectors (.ofGrammar g) follow ⟨name, rhs⟩ = .ok tokens ∧
      ∀ s : Symbol, s ∈ tokens ↔ s.IsToken ∧ g.Selects name rhs s := by
  have hfirst (s : Symbol) := FirstSets.mem_ofSequence_iff (a := s) hg (hg.alternative hr)
  obtain ⟨tokens, htok, hmem⟩ :=
    exists_selectors (FollowSets.of?_of_compute h hr.mem_nonterminals) rhs
  refine ⟨tokens, htok, fun s => ?_⟩
  rw [hmem, hfirst, hfirst, FollowSets.mem_sets_iff_follows hg hd h]
  constructor
  · rintro (⟨⟨rfl, -⟩ | ⟨hne, hb⟩, hs⟩ | ⟨⟨-, hv⟩ | ⟨hne, -⟩, htoken, hfollows⟩)
    · exact absurd rfl hs
    · exact ⟨⟨hb.isNonterminal_eq_false, hne⟩, .inl hb⟩
    · exact ⟨htoken, .inr ⟨hv, hfollows⟩⟩
    · exact absurd rfl hne
  · rintro ⟨htoken, hb | ⟨hv, hfollows⟩⟩
    · exact .inl ⟨.inr ⟨htoken.2, hb⟩, htoken.2⟩
    · exact .inr ⟨.inl ⟨rfl, hv⟩, htoken, hfollows⟩

/-! ## The table of an analysis -/

namespace Analysis

variable {settings : Settings} {a : Analysis}

/-- An analysis is the result of its stages. -/
theorem run_eq_ok_iff :
    run g settings = .ok a ↔ (∃ flags, g.validate = .ok flags) ∧
      ∃ follow table, FollowSets.compute g (.ofGrammar g) settings.maxFollowPasses = .ok follow ∧
        ParsingTable.build g (.ofGrammar g) follow = .ok table ∧
        a = { grammar := g, first := .ofGrammar g, follow, table,
              diagnostics := ⟨(FirstSets.ofGrammar g).diagnostics ++ [follow.diagnostic]⟩ } := by
  constructor
  · intro h
    obtain ⟨flags, hv, h⟩ := Failure.exists_of_bind_eq_ok h
    obtain ⟨follow, hf, h⟩ := Failure.exists_of_bind_eq_ok h
    obtain ⟨table, ht, h⟩ := Failure.exists_of_bind_eq_ok h
    cases h
    exact ⟨⟨flags, hv⟩, follow, table, hf, ht, rfl⟩
  · rintro ⟨⟨flags, hv⟩, follow, table, hf, ht, rfl⟩
    unfold run
    simp only [hv, hf, ht, bind, Except.bind, pure, Except.pure]

theorem exists_run {s : Settings} (h : (run g s).isOk = true) : ∃ a, run g s = .ok a := by
  cases hr : run g s with
  | ok a => exact ⟨a, rfl⟩
  | error e =>
    rw [hr] at h
    cases h

/-- The stages behind an analysis. -/
theorem of_run (h : run g settings = .ok a) :
    a.grammar = g ∧ g.checkDeclared = .ok () ∧
      FollowSets.compute g (.ofGrammar g) settings.maxFollowPasses = .ok a.follow ∧
      ParsingTable.build g (.ofGrammar g) a.follow = .ok a.table := by
  obtain ⟨⟨flags, hv⟩, follow, table, hf, ht, rfl⟩ := run_eq_ok_iff.mp h
  exact ⟨rfl, Grammar.checkDeclared_of_validate hv, hf, ht⟩

theorem first_eq (h : run g settings = .ok a) : a.first = .ofGrammar g := by
  obtain ⟨-, follow, table, -, -, rfl⟩ := run_eq_ok_iff.mp h
  rfl

theorem emptyFree (h : run g settings = .ok a) : g.EmptyFree :=
  Grammar.emptyFree_of_checkDeclared (of_run h).2.1

theorem namesDeclared (h : run g settings = .ok a) : g.NamesDeclared :=
  Grammar.namesDeclared_of_checkDeclared (of_run h).2.1

theorem mem_follow_iff (h : run g settings = .ok a) {s : Symbol} (hs : s.IsToken) {name : String} :
    s ∈ a.follow.sets.of name ↔ g.Follows s name := by
  rw [FollowSets.mem_sets_iff_follows (emptyFree h) (namesDeclared h) (of_run h).2.2.1]
  exact and_iff_right hs

/-- Only tokens follow a nonterminal. -/
theorem isToken_of_mem_follow (h : run g settings = .ok a) {s : Symbol} {name : String}
    (hs : s ∈ a.follow.sets.of name) : s.IsToken :=
  ((FollowSets.mem_sets_iff_follows (emptyFree h) (namesDeclared h) (of_run h).2.2.1).mp hs).1

/-- The selectors of an alternative are the tokens that select it. -/
theorem exists_selectors (h : run g settings = .ok a) {name : String} {rhs : List Symbol}
    (hr : g.HasAlternative name rhs) :
    ∃ tokens, ParsingTable.selectors (.ofGrammar g) a.follow ⟨name, rhs⟩ = .ok tokens ∧
      ∀ s : Symbol, s.IsToken → (s ∈ tokens ↔ g.Selects name rhs s) := by
  obtain ⟨tokens, htok, hmem⟩ :=
    ParsingTable.exists_selecting (emptyFree h) (namesDeclared h) (of_run h).2.2.1 hr
  exact ⟨tokens, htok, fun s hs => (hmem s).trans (and_iff_right hs)⟩

/-- **The table of an analysis decides its grammar.** -/
theorem decides (h : run g settings = .ok a) : a.table.Decides g where
  names := namesDeclared h
  valid name s i hl := by
    obtain ⟨alts, k, rhs, -, hf, hk, -, -, rfl⟩ :=
      (ParsingTable.lookup_of_build (of_run h).2.2.2 name s i).mp hl
    exact ⟨rhs, ParsingTable.Decides.production?_of_getElem? hf hk⟩
  lookup_iff {name s i} hs := by
    rw [ParsingTable.lookup_of_build (of_run h).2.2.2]
    constructor
    · rintro ⟨alts, k, rhs, tokens, hf, hk, htok, hmem, rfl⟩
      obtain ⟨tokens', htok', hsel⟩ :=
        exists_selectors h ⟨alts, hf, List.mem_of_getElem? hk⟩
      rw [htok] at htok'
      cases htok'
      exact ⟨alts, k, rhs, hf, hk, (hsel s hs).mp hmem, rfl⟩
    · rintro ⟨alts, k, rhs, hf, hk, hsel, rfl⟩
      obtain ⟨tokens, htok, hmem⟩ := exists_selectors h ⟨alts, hf, List.mem_of_getElem? hk⟩
      exact ⟨alts, k, rhs, tokens, hf, hk, htok, (hmem s hs).mpr hsel, rfl⟩

theorem decides_grammar (h : run g settings = .ok a) : a.table.Decides a.grammar := by
  rw [(of_run h).1]
  exact decides h

end Analysis

end Predictive
