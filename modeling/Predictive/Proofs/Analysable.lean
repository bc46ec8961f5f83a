import Predictive.Proofs.Ambiguities
import Predictive.Proofs.Conflict
import Predictive.Proofs.Productive

/-!
# Which grammars are analysed, and what the analysis says

An analysis runs through its stages in the order of declaration. Its outcome is said without an
order: everything is declared, every nonterminal is productive, and no token selects two
alternatives of one nonterminal (`Grammar.Deterministic`). What it computes for an alternative, or
stores in a cell, is said by the place of the alternative (`Grammar.alternativeAt?`).

* `Analysis.exists_run_iff`, `Analysis.code_of_run`: which grammars are analysed, and of what kind
  the rejection of another is.
* `FirstSets.ofAlternative?_ofNat`, `FirstSets.mem_subjects_iff`: FIRST of the alternatives, and the
  warnings about them.
* `Analysis.lookup_eq_some_iff`: the cells of the table.
-/

namespace Predictive

namespace Grammar

/-- The alternative of a nonterminal at a place, if there is one. -/
def alternativeAt? (g : Grammar) (name : String) (k : Nat) : Option (List Symbol) :=
  (g.rules.find? name).bind (·[k]?)

/-- No token selects two alternatives of one nonterminal. -/
def Deterministic (g : Grammar) : Prop :=
  ∀ name i j rhs rhs' a, g.alternativeAt? name i = some rhs → g.alternativeAt? name j = some rhs' →
    a.IsToken → g.Selects name rhs a → g.Selects name rhs' a → i = j

variable {g : Grammar} {name : String} {rhs : List Symbol} {a : Symbol}

theorem alternativeAt?_of_find? {alts : List (List Symbol)} (h : g.rules.find? name = some alts)
    (k : Nat) : g.alternativeAt? name k = alts[k]? := by
  unfold alternativeAt?
  rw [h]
  rfl

theorem alternativeAt?_of_not_mem (h : name ∉ g.nonterminals) (k : Nat) :
    g.alternativeAt? name k = none := by
  unfold alternativeAt?
  rw [OrderedMap.find?_eq_none_iff.mpr h]
  rfl

theorem hasAlternative_iff :
    g.HasAlternative name rhs ↔ ∃ k, g.alternativeAt? name k = some rhs := by
  unfold HasAlternative alternativeAt?
  simp only [Option.bind_eq_some_iff, List.mem_iff_getElem?]
  constructor
  · rintro ⟨alts, halts, k, hk⟩
    exact ⟨k, alts, halts, hk⟩
  · rintro ⟨k, alts, halts, hk⟩
    exact ⟨alts, halts, k, hk⟩

theorem production?_ofNat {k : Nat} {p : Production} :
    g.production? name k = .ok p ↔ p.lhs = name ∧ g.alternativeAt? name k = some p.rhs := by
  obtain ⟨lhs, rhs⟩ := p
  unfold production? alternativeAt?
  cases g.rules.find? name with
  | none => simp
  | some alts =>
    simp only [SignedIndex.get?_ofNat, Option.bind_some]
    cases alts[k]? <;> simp [eq_comm]

end Grammar

variable {g : Grammar} {name : String} {a : Symbol}

/-! ## FIRST, place by place -/

namespace FirstSets

/-- The set at a place is FIRST of the alternative there. -/
theorem getElem?_alternatives {sets : List SymbolSet}
    (h : (FirstSets.ofGrammar g).alternatives.find? name = some sets) (k : Nat) :
    sets[k]? = (g.alternativeAt? name k).map (FirstSets.ofGrammar g).ofSequence := by
  unfold ofGrammar at h
  rw [OrderedMap.find?_mapValues, Option.map_eq_some_iff] at h
  obtain ⟨alts, halts, rfl⟩ := h
  rw [Grammar.alternativeAt?_of_find? halts, List.getElem?_map]
  rfl

theorem ofAlternative?_ofNat (g : Grammar) (name : String) (k : Nat) :
    (FirstSets.ofGrammar g).ofAlternative? name k =
      match g.alternativeAt? name k with
      | some rhs => .ok ((FirstSets.ofGrammar g).ofSequence rhs)
      | none => .error (if g.rules.contains name then .noSuchIndex else .unknownName name) := by
  have hkeys : (FirstSets.ofGrammar g).alternatives.keys = g.nonterminals :=
    OrderedMap.keys_mapValues _ _
  unfold ofAlternative?
  cases h : (FirstSets.ofGrammar g).alternatives.find? name with
  | none =>
    have hname : name ∉ g.nonterminals := hkeys ▸ OrderedMap.find?_eq_none_iff.mp h
    rw [Grammar.alternativeAt?_of_not_mem hname, if_neg (mt OrderedMap.contains_iff.mp hname)]
  | some sets =>
    have hname : name ∈ g.nonterminals := hkeys ▸ OrderedMap.mem_keys.mpr ⟨sets, h⟩
    rw [if_pos (OrderedMap.contains_iff.mpr hname)]
    simp only [SignedIndex.get?_ofNat, getElem?_alternatives h]
    cases g.alternativeAt? name k <;> rfl

/-- The warnings are about the symbols that two alternatives of a nonterminal have in FIRST. -/
theorem mem_subjects_iff (hg : g.EmptyFree) :
    (name, a) ∈ (FirstSets.ofGrammar g).subjects ↔
      ∃ i j rhs rhs', i ≠ j ∧ g.alternativeAt? name i = some rhs ∧ g.InFirst a rhs ∧
        g.alternativeAt? name j = some rhs' ∧ g.InFirst a rhs' := by
  have hfirst {k : Nat} {rhs : List Symbol} (hk : g.alternativeAt? name k = some rhs) :
      a ∈ (FirstSets.ofGrammar g).ofSequence rhs ↔ g.InFirst a rhs :=
    mem_ofSequence_iff hg (hg.alternative (Grammar.hasAlternative_iff.mpr ⟨k, hk⟩))
  rw [mem_subjects]
  constructor
  · rintro ⟨sets, hsets, i, j, set, set', hne, hi, ha, hj, ha'⟩
    rw [getElem?_alternatives hsets, Option.map_eq_some_iff] at hi hj
    obtain ⟨rhs, hi, rfl⟩ := hi
    obtain ⟨rhs', hj, rfl⟩ := hj
    exact ⟨i, j, rhs, rhs', hne, hi, (hfirst hi).mp ha, hj, (hfirst hj).mp ha'⟩
  · rintro ⟨i, j, rhs, rhs', hne, hi, ha, hj, ha'⟩
    obtain ⟨alts, halts, -⟩ := Grammar.hasAlternative_iff.mpr ⟨i, hi⟩
    have hsets := find?_alternatives halts
    have hat {k : Nat} {rhs : List Symbol} (hk : g.alternativeAt? name k = some rhs) :
        (alts.map (FirstSets.ofGrammar g).ofSequence)[k]? =
          some ((FirstSets.ofGrammar g).ofSequence rhs) := by
      rw [getElem?_alternatives hsets, hk]
      rfl
    exact ⟨_, hsets, i, j, _, _, hne, hat hi, (hfirst hi).mpr ha, hat hj, (hfirst hj).mpr ha'⟩

end FirstSets

/-! ## Selectors -/

namespace ParsingTable

variable {follow : FollowSets} {maxPasses : Option Int}

/-- **The selectors of an alternative are the tokens that select it.** -/
theorem selected_iff (hd : g.Declared)
    (hf : FollowSets.compute g (.ofGrammar g) maxPasses = .ok follow) {k : Nat} :
    Selected g (.ofGrammar g) follow name k a ↔
      a.IsToken ∧ ∃ rhs, g.alternativeAt? name k = some rhs ∧ g.Selects name rhs a := by
  unfold Selected SelectedOf
  constructor
  · rintro ⟨alts, halts, rhs, tokens, hk, htok, ha⟩
    have hat : g.alternativeAt? name k = some rhs := Option.bind_eq_some_iff.mpr ⟨alts, halts, hk⟩
    obtain ⟨tokens', htok', hmem⟩ := exists_selecting hd.emptyFree hd.namesDeclared hf
      (Grammar.hasAlternative_iff.mpr ⟨k, hat⟩)
    rw [htok] at htok'
    cases htok'
    obtain ⟨htoken, hsel⟩ := (hmem a).mp ha
    exact ⟨htoken, rhs, hat, hsel⟩
  · rintro ⟨htoken, rhs, hat, hsel⟩
    obtain ⟨tokens, htok, hmem⟩ := exists_selecting hd.emptyFree hd.namesDeclared hf
      (Grammar.hasAlternative_iff.mpr ⟨k, hat⟩)
    obtain ⟨alts, halts, hk⟩ := Option.bind_eq_some_iff.mp hat
    exact ⟨alts, halts, rhs, tokens, hk, htok, (hmem a).mpr ⟨htoken, hsel⟩⟩

/-- The selectors of the alternatives are disjoint just in a deterministic grammar. -/
theorem selectorsDisjoint_iff (hd : g.Declared)
    (hf : FollowSets.compute g (.ofGrammar g) maxPasses = .ok follow) :
    (∀ name ∈ g.nonterminals, SelectorsDisjoint g (.ofGrammar g) follow name) ↔
      g.Deterministic := by
  constructor
  · intro h name i j rhs rhs' a hi hj ha hs hs'
    have hname := (Grammar.hasAlternative_iff.mpr ⟨i, hi⟩).mem_nonterminals
    exact h name hname i j a ((selected_iff hd hf).mpr ⟨ha, rhs, hi, hs⟩)
      ((selected_iff hd hf).mpr ⟨ha, rhs', hj, hs'⟩)
  · intro h name _ i j a hi hj
    obtain ⟨ha, rhs, hi, hs⟩ := (selected_iff hd hf).mp hi
    obtain ⟨-, rhs', hj, hs'⟩ := (selected_iff hd hf).mp hj
    exact h name i j rhs rhs' a hi hj ha hs hs'

end ParsingTable

/-! ## Analyses -/

namespace Analysis

theorem declared {settings : Settings} {analysis : Analysis}
    (h : run g settings = .ok analysis) : g.Declared :=
  Grammar.checkDeclared_eq_ok_iff.mp (of_run h).2.1

/-- **A cell of the table holds the place of the alternative that its token selects.** -/
theorem lookup_eq_some_iff {settings : Settings} {analysis : Analysis}
    (h : run g settings = .ok analysis) {i : Int} :
    analysis.table.lookup name a = some i ↔ ∃ k : Nat, i = k ∧ a.IsToken ∧
      ∃ rhs, g.alternativeAt? name k = some rhs ∧ g.Selects name rhs a := by
  obtain ⟨-, -, hf, ht⟩ := of_run h
  rw [ParsingTable.lookup_eq_some_iff ht]
  simp only [ParsingTable.selected_iff (declared h) hf]

/-- Without a limit the passes end, and the table decides. -/
theorem run_of_validate {flags : Grammar.ProductiveFlags} (h : g.validate = .ok flags) :
    ∃ follow, FollowSets.compute g (.ofGrammar g) none = .ok follow ∧
      ((∃ a, run g .defaults = .ok a) ↔
        ∃ table, ParsingTable.build g (.ofGrammar g) follow = .ok table) ∧
      ∀ e, run g .defaults = .error e →
        ParsingTable.build g (.ofGrammar g) follow = .error e := by
  have hd := Grammar.namesDeclared_of_checkDeclared (Grammar.checkDeclared_of_validate h)
  obtain ⟨follow, hf⟩ := FollowSets.exists_compute hd (.ofGrammar g)
  have hf' : FollowSets.compute g (.ofGrammar g) Settings.defaults.maxFollowPasses =
      .ok follow := hf
  refine ⟨follow, hf, ?_, fun e he => ?_⟩
  · unfold run
    simp only [h, hf', bind, Except.bind, pure, Except.pure]
    cases ParsingTable.build g (.ofGrammar g) follow <;> simp
  · unfold run at he
    simp only [h, hf', bind, Except.bind, pure, Except.pure] at he
    cases hb : ParsingTable.build g (.ofGrammar g) follow with
    | ok table =>
      rw [hb] at he
      cases he
    | error e' =>
      rw [hb] at he
      cases he
      rfl

/-- **A grammar is analysed iff all is declared, all nonterminals are productive, and no token
selects two alternatives.** -/
theorem exists_run_iff : (∃ a, run g .defaults = .ok a) ↔
    (g.Declared ∧ ∀ name ∈ g.nonterminals, g.Productive name) ∧ g.Deterministic := by
  constructor
  · rintro ⟨a, h⟩
    obtain ⟨flags, hv⟩ := (run_eq_ok_iff.mp h).1
    obtain ⟨-, -, hf, ht⟩ := of_run h
    have hpasses := Grammar.validate_isOk_iff.mp ⟨flags, hv⟩
    refine ⟨hpasses, (ParsingTable.selectorsDisjoint_iff hpasses.1 hf).mp fun name _ => ?_⟩
    exact ParsingTable.disjoint_of_build ht name
  · rintro ⟨hpasses, hdet⟩
    obtain ⟨flags, hv⟩ := Grammar.validate_isOk_iff.mpr hpasses
    obtain ⟨follow, hf, hrun, -⟩ := run_of_validate hv
    refine hrun.mpr ((ParsingTable.build_isOk_iff
      (ParsingTable.hasSelectors_of_compute hf)).mpr ?_)
    exact (ParsingTable.selectorsDisjoint_iff hpasses.1 hf).mpr hdet

/-- A rejection is for a declaration if one is missing, else for a nonterminal that is not
productive if there is one, and else for a conflict. -/
theorem code_of_run {e : GrammarError} (h : run g .defaults = .error (.grammar e)) :
    (¬ g.Declared → e.code = "UndeclaredSymbol") ∧
    (g.Declared → (¬ ∀ name ∈ g.nonterminals, g.Productive name) →
      e.code = "NonTerminatingGrammar") ∧
    (g.Declared → (∀ name ∈ g.nonterminals, g.Productive name) → e.code = "TableConflict") := by
  cases hv : g.validate with
  | error failure =>
    have he : failure = .grammar e := by
      unfold run at h
      rw [hv] at h
      cases h
      rfl
    subst he
    obtain ⟨hundeclared, hnonterminating⟩ := Grammar.code_of_validate hv
    refine ⟨hundeclared, fun hd _ => hnonterminating hd, fun hd hp => ?_⟩
    obtain ⟨flags, hok⟩ := Grammar.validate_isOk_iff.mpr ⟨hd, hp⟩
    rw [hv] at hok
    cases hok
  | ok flags =>
    obtain ⟨hd, hp⟩ := Grammar.validate_isOk_iff.mp ⟨flags, hv⟩
    obtain ⟨follow, hf, -, herror⟩ := run_of_validate hv
    obtain ⟨name, token, existing, incoming, hconflict, -⟩ :=
      ParsingTable.firstClash_of_build (ParsingTable.hasSelectors_of_compute hf) (herror _ h)
    cases hconflict
    exact ⟨fun hn => absurd hd hn, fun _ hn => absurd hp hn, fun _ _ => rfl⟩

end Analysis

end Predictive
